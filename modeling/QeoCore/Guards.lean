import QeoCore.Trace
/-!
# Guards — the liveliness guards of a participant's readers (guard.c, domain.c)

A reader matched with a writer of a participant has a guard in the participant's list, sorted by lease period.  A
liveliness message restarts the guards of its kind: the first of them gets a timer, and when that has elapsed it is
handed to the next one for the difference of the two periods.

A timer is given by the guard that holds it and the tick it is due at.  One that runs although no guard holds it any
more is a stray.
-/
namespace Qeo.Guards

inductive Kind where
  | automatic | manualByParticipant
  deriving DecidableEq

inductive GuardMode where
  | none | oneShot | periodic | progressive | mixed
  deriving DecidableEq

/-- `Guard_t`.  `gp` is its address and `timer` when the timer it holds is due.  `heard` is not in the code: the guard
was there when the last message of its kind arrived. -/
structure Guard where
  gp : Nat
  kind : Kind
  mode : GuardMode
  period : Nat
  wep : Nat
  rep : Nat
  alive : Bool
  timer : Option Nat
  heard : Bool
  deriving DecidableEq

/-- The participant's list (`p_liveliness`), the clock in ticks, and the timers nobody holds: when they are due, and the
guard they call back for.  `last` is not in the code: when the last message of a kind arrived. -/
structure State where
  now : Nat
  list : List Guard
  strays : List (Nat × Nat)
  next : Nat
  last : Kind → Nat

/-! ## The list -/

def guardFirst (l : List Guard) (k : Kind) : Option Guard := l.find? fun g => g.kind = k

/-- The list is kept in the order of the periods. -/
def guardAdd (l : List Guard) (g : Guard) : List Guard :=
  l.takeWhile (fun x => x.period ≤ g.period) ++ g :: l.dropWhile fun x => x.period ≤ g.period

def setTimer (l : List Guard) (gp : Nat) (timer : Option Nat) : List Guard :=
  l.map fun g => if g.gp = gp then { g with timer } else g

def Guard.joins (k : Kind) (wep rep : Nat) (g : Guard) : Bool := g.kind = k ∧ g.wep = wep ∧ g.rep = rep

/-- An `unsigned` product. -/
def ticks32 (n : Int) : Nat := (n % 2 ^ 32).toNat

def guardInsert (s : State) (k : Kind) (mode : GuardMode) (p wep rep : Nat) : State :=
  let gp : Guard := ⟨s.next, k, mode, p, wep, rep, true, none, false⟩
  let ticks := if mode = .mixed then ticks32 (p * 7) / 8 else p
  let s := { s with next := s.next + 1 }
  if mode = .none then { s with list := guardAdd s.list gp }
  else match guardFirst s.list k with
    | none => { s with list := guardAdd s.list { gp with timer := some (s.now + ticks) } }
    | some first =>
      if mode = .oneShot ∨ mode = .progressive then
        { s with list := guardAdd s.list { gp with timer := some (s.now + ticks) } }
      else match first.timer with
        | some due =>
          -- The new guard takes over the timer of the one that was first.
          if p < first.period then
            let gp := { gp with timer := some (s.now + min ticks (due - s.now)) }
            { s with list := guardAdd (setTimer s.list first.gp none) gp }
          else { s with list := guardAdd s.list gp }
        | none => { s with list := guardAdd s.list gp }

def guardExtract (s : State) (k : Kind) (wep rep : Nat) : State :=
  match s.list.dropWhile fun g => !g.joins k wep rep with
  | [] => s
  | gp :: post =>
    let list := s.list.takeWhile (fun g => !g.joins k wep rep) ++ post
    match gp.timer with
    | none => { s with list }
    | some due =>
      if (gp.mode = .periodic ∧ guardFirst s.list k = some gp) ∨ gp.mode = .progressive then
        match guardFirst list k with
        | none => { s with list }
        | some nx =>
          { s with
            list := setTimer list nx.gp (some (s.now + ticks32 (nx.period - gp.period + (due - s.now))))
            strays := (nx.timer.map (·, nx.gp)).toList ++ s.strays }
      else { s with list }

/-! ## Timeouts and restarts -/

inductive TimerPtr where
  | elapsed | running | null
  deriving DecidableEq

/-- The loop of `guard_timeout` over the guards behind the one that has timed out; `prev` is the period of the last one.
`none` where NULL is used, or a timer freed that is still running. -/
def timeoutWalk (xfct : Guard → Guard) (k : Kind) (tp : TimerPtr) (now : Nat) : Nat → List Guard → Option (List Guard)
  | _, [] => if tp = .elapsed then some [] else none
  | prev, gp :: l =>
    if gp.kind ≠ k then (timeoutWalk xfct k tp now prev l).map (gp :: ·)
    else if prev < gp.period then
      match gp.timer with
      | some _ =>
        if gp.mode = .oneShot then (timeoutWalk xfct k tp now gp.period l).map (gp :: ·)
        else if tp = .elapsed then some (gp :: l) else none
      | none => if tp = .null then none else some ({ gp with timer := some (now + (gp.period - prev)) } :: l)
    else (timeoutWalk xfct k tp now gp.period l).map (xfct gp :: ·)

/-- The timer of a guard runs out. -/
def guardTimeout (xfct : Guard → Guard) (s : State) (addr : Nat) (tp : TimerPtr) : Option State :=
  match s.list.dropWhile fun g => g.gp ≠ addr with
  | [] => none
  | gp :: post =>
    let pre := s.list.takeWhile fun g => g.gp ≠ addr
    if gp.mode = .periodic then
      if tp = .null then none
      else some { s with list := pre ++ { xfct gp with timer := some (s.now + gp.period) } :: post }
    else
      let gp' := { xfct gp with timer := none }
      if gp.mode = .oneShot then
        if tp = .elapsed then some { s with list := pre ++ gp' :: post } else none
      else (timeoutWalk xfct gp.kind tp s.now gp.period post).map fun post => { s with list := pre ++ gp' :: post }

/-- The walk of `guard_restart`: only the first guard of the kind has a timer after it. -/
def restartWalk (xfct : Guard → Guard) (k : Kind) (p now : Nat) : Bool → List Guard → List Guard
  | _, [] => []
  | seen, gp :: l =>
    if gp.kind ≠ k then gp :: restartWalk xfct k p now seen l
    else
      { xfct gp with timer := if seen then none else some (now + if p = 0 then gp.period else p) } ::
        restartWalk xfct k p now true l

def guardRestart (xfct : Guard → Guard) (s : State) (k : Kind) (p : Nat) : State :=
  { s with list := restartWalk xfct k p s.now false s.list }

/-! ## The guards of readers -/

def rlLivelinessTimeout (gp : Guard) : Guard := { gp with alive := false }

section
variable (s : State)

def rlTimeout (addr : Nat) (tp : TimerPtr) : Option State := guardTimeout rlLivelinessTimeout s addr tp

def rlAddPart (k : Kind) (p rep wep : Nat) : State := guardInsert s k .progressive p wep rep

def rlRemPart (k : Kind) (rep wep : Nat) : State := guardExtract s k wep rep

def rlRestart (gp : Guard) : Guard := { gp with alive := true }

def rlParticipantEvent (k : Kind) : State := guardRestart rlRestart s k 0

inductive Event where
  | tick
  | expire (addr : Nat)
  | stray (due addr : Nat)
  | matched (k : Kind) (p : UInt32) (rep wep : Nat)
  | unmatched (k : Kind) (rep wep : Nat)
  | message (k : Kind)

/-- A sign of life, noted in a ghost field. -/
def State.hear (k : Kind) : State :=
  { rlParticipantEvent s k with
    list := (rlParticipantEvent s k).list.map fun g => if g.kind = k then { g with heard := true } else g
    last := Function.update s.last k s.now }

def step : Event → Option State
  | .tick =>
    if (∀ g ∈ s.list, g.timer ≠ some s.now) ∧ ∀ t ∈ s.strays, t.1 ≠ s.now then some { s with now := s.now + 1 }
    else none
  | .expire addr => if ∃ g ∈ s.list, g.gp = addr ∧ g.timer = some s.now then rlTimeout s addr .elapsed else none
  | .stray due addr =>
    if (due, addr) ∈ s.strays ∧ due = s.now then
      let held := (s.list.find? (·.gp = addr)).bind (·.timer)
      rlTimeout { s with strays := s.strays.erase (due, addr) } addr (if held.isSome then .running else .null)
    else none
  | .matched k p rep wep => some (rlAddPart s k p.toNat rep wep)
  | .unmatched k rep wep => some (rlRemPart s k rep wep)
  | .message k => some (s.hear k)

end

def State.init : State := ⟨0, [], [], 0, fun _ => 0⟩

end Qeo.Guards
