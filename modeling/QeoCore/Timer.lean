import QeoCore.Linked
import QeoCore.Trace
/-!
# Timer — timers, their lists and the thread that calls back (timer.c)

The steps are the critical sections of `tmr_lock`, the unlocked read with which `tmr_start_lock` begins, and the
attempts to take a timer's lock.  Timers are chained by `next`; a chain that runs in a circle keeps its walker for ever
(`none`).
-/
namespace Qeo.Timers

open Linked

abbrev Ticks := UInt64

def maxTimeDiff : Ticks := 0x7fffffff

def sysTicksdiff (old new : Ticks) : Ticks := if old ≤ new then new - old else 0xffffffffffffffff - old + new + 1

structure Timer where
  next : Option Nat
  time : Ticks
  user : Nat
  tcbf : Option Nat
  lockp : Option Nat

def links : Links Timer where
  next := Timer.next
  setNext p n := { n with next := p }
  next_setNext _ _ := rfl
  setNext_setNext _ _ _ := rfl

/-- Where the thread is that calls the timers. -/
inductive Manager
  | outside
  /-- In the loop, with `tmr_lock` taken. -/
  | looping
  /-- Between popping a timer and trying its lock, without `tmr_lock`. -/
  | popped (t fct user : Nat) (lockp : Option Nat)
  /-- In the callback of a timer. -/
  | running (t : Nat)
  deriving DecidableEq

/-- A call of `tmr_start_lock` between its look at the timer and its insertion. -/
structure Call where
  t : Nat
  ticks : Ticks
  user : Nat
  fct : Nat
  lockp : Option Nat
  now : Ticks
  /-- The timer was seen running, and `tmr_stop` is still to come. -/
  stops : Bool

structure State where
  mem : Nat → Option Timer
  tmrList : Option Nat
  phead : Option Nat
  ptail : Option Nat
  tmrCallbackActive : Nat
  activeTimer : Option Nat
  manager : Manager
  calls : Nat → Option Call

inductive Event
  /-- Thread `k` calls `tmr_start_lock` and looks at the timer. -/
  | start (k t : Nat) (ticks : Ticks) (user fct : Nat) (lockp : Option Nat) (now : Ticks)
  /-- The `tmr_stop` inside a call of `tmr_start_lock`. -/
  | restop (k t : Nat)
  /-- The critical section of `tmr_start_lock` itself. -/
  | insert (k t : Nat)
  | stop (t : Nat)
  /-- `tmr_manage` is called. -/
  | enter
  /-- A round of the loop at time `now`. -/
  | iterate (now : Ticks)
  /-- The result of `lock_try`, which is not asked where the timer has no lock. -/
  | tryLock (free : Bool)
  /-- The callback returns. -/
  | finish

namespace State

variable (size : Nat) (s : State)

def store (t : Nat) (n : Timer) : State := { s with mem := Function.update s.mem t (some n) }

def unlink (head prev : Option Nat) (t : Nat) : Option ((Nat → Option Timer) × Option Nat) :=
  (s.mem t).bind fun n => relink links s.mem head prev n.next

def tmrStop (t : Nat) : Option State :=
  (s.mem t).bind fun n =>
    if n.tcbf = none then some s
    else
      let s := s.store t { n with tcbf := none }
      (walk links s.mem (fun a _ => a == t) size none s.tmrList).bind fun r =>
        if r.2 = none then
          if s.phead = none then some s
          else
            (walk links s.mem (fun a _ => a == t) size none s.phead).bind fun q =>
              if q.2 = none then some s
              else (s.unlink s.phead q.1 t).map fun u =>
                { s with mem := u.1, phead := u.2, ptail := if n.next = none then q.1 else s.ptail }
        else (s.unlink s.tmrList r.1 t).map fun u => { s with mem := u.1, tmrList := u.2 }

def insert (c : Call) : Option State :=
  (s.mem c.t).bind fun n =>
    let time := c.now + c.ticks
    let s := s.store c.t { n with time := time, user := c.user, tcbf := some c.fct, lockp := c.lockp }
    let stop := fun (_ : Nat) (p : Timer) =>
      !(maxTimeDiff < sysTicksdiff c.now p.time || sysTicksdiff c.now p.time < sysTicksdiff c.now time)
    (walk links s.mem stop size none s.tmrList).bind fun r =>
      (s.mem c.t).bind fun n =>
        let s := s.store c.t { n with next := r.2 }
        (relink links s.mem s.tmrList r.1 (some c.t)).map fun u => { s with mem := u.1, tmrList := u.2 }

/-- The end of the loop: the timers whose locks were not free are put back. -/
def leave : Option State :=
  match s.phead with
  | none => some { s with manager := .outside }
  | some h =>
    s.ptail.bind fun a => (s.mem a).map fun n =>
      { s.store a { n with next := s.tmrList } with tmrList := some h, phead := none, manager := .outside }

/-- One round of the loop of `tmr_manage`. -/
def iterate (now : Ticks) : Option State :=
  match s.tmrList with
  | none => s.leave
  | some t =>
    (s.mem t).bind fun n =>
      let d := sysTicksdiff now n.time
      if d ≠ 0 ∧ d < maxTimeDiff then s.leave
      else
        match n.tcbf with
        | none => some { s with tmrList := n.next }
        | some fct =>
          some { s.store t { n with tcbf := none } with
            tmrList := n.next, activeTimer := some t, manager := .popped t fct n.user n.lockp }

def pend (t : Nat) : Option State :=
  match s.phead with
  | none => some { s with phead := some t }
  | some _ => s.ptail.bind fun a => (s.mem a).map fun m => s.store a { m with next := some t }

def requeue (t fct : Nat) : Option State :=
  if s.activeTimer = none then some { s with manager := .looping }
  else
    (s.mem t).bind fun n =>
      let s := { s.store t { n with tcbf := some fct } with activeTimer := none, manager := .looping }
      (s.pend t).bind fun s => (s.mem t).map fun n => { s.store t { n with next := none } with ptail := some t }

def step : Event → Option State
  | .start k t ticks user fct lockp now =>
    match s.calls k, s.mem t with
    | none, some n => some { s with
        calls := Function.update s.calls k (some ⟨t, ticks, user, fct, lockp, now, n.tcbf.isSome⟩) }
    | _, _ => none
  | .restop k t =>
    match s.calls k with
    | some c =>
      if c.t = t ∧ c.stops = true ∧ s.manager ≠ .looping then
        (s.tmrStop size t).map fun s => { s with calls := Function.update s.calls k (some { c with stops := false }) }
      else none
    | none => none
  | .insert k t =>
    match s.calls k with
    | some c =>
      if c.t = t ∧ c.stops = false ∧ s.manager ≠ .looping then
        (s.insert size c).map fun s => { s with calls := Function.update s.calls k none }
      else none
    | none => none
  | .stop t => if s.manager = .looping then none else s.tmrStop size t
  | .enter =>
    if s.manager = .outside then
      if s.tmrCallbackActive ≠ 0 then some s else some { s with manager := .looping }
    else none
  | .iterate now => if s.manager = .looping then s.iterate now else none
  | .tryLock free =>
    match s.manager with
    | .popped t fct _ lockp =>
      if lockp ≠ none ∧ free = false then s.requeue t fct
      else some { s with tmrCallbackActive := s.tmrCallbackActive + 1, manager := .running t }
    | _ => none
  | .finish =>
    match s.manager with
    | .running _ =>
      some { s with tmrCallbackActive := s.tmrCallbackActive - 1, activeTimer := none, manager := .looping }
    | _ => none

end State

def init (size : Nat) (timer : Nat → Timer) : State where
  mem t := if t < size then some { timer t with tcbf := none } else none
  tmrList := none
  phead := none
  ptail := none
  tmrCallbackActive := 0
  activeTimer := none
  manager := .outside
  calls _ := none

end Qeo.Timers
