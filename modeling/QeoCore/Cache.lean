import QeoCore.DoWhile
/-!
# Cache — the history cache: change lists, acknowledgements, removal (`cache.c`)

A cached change stands in the list of all changes (`hc_changes`) and, in a multi-instance cache, in the list of its
instance (`i_list`).  Its identity is `uid`, the record's address; `c_wack` and `c_sstate`, which move afterwards, are
kept by that identity in the cache (`wack`, `unread`).  `i_ndata` and `hc_ndata` are counted (`nData`).
-/
namespace Qeo.Cache

/-- `ChangeKind_t`: two bits, none of them set for ALIVE, both for ZOMBIE. -/
structure Kind where
  disposed : Bool
  unregistered : Bool
deriving DecidableEq

namespace Kind

def alive : Kind := ⟨false, false⟩
def notAliveDisposed : Kind := ⟨true, false⟩
def notAliveUnregistered : Kind := ⟨false, true⟩
def zombie : Kind := ⟨true, true⟩

def or (k l : Kind) : Kind := ⟨k.disposed || l.disposed, k.unregistered || l.unregistered⟩

end Kind

/-- `Change_t`, in a cache. -/
structure Change where
  uid : Nat
  kind : Kind
  writer : Nat
  handle : Nat
  time : Int
  seqnr : Nat
  dispCnt : Nat
  noWCnt : Nat
  length : Nat
  /-- Is the data in a data buffer (`c_db`)?  Small samples and key-only changes have none. -/
  db : Bool
deriving DecidableEq

/-- `INSTANCE`; `newView` is `i_view == NEW`, `tbf` says whether time-based filter nodes hang on it. -/
structure Instance where
  handle : Nat
  list : List Change
  kind : Kind
  newView : Bool
  wait : Bool
  registered : Bool
  dispCnt : Nat
  noWCnt : Nat
  tbf : Bool
  owner : Nat
  writers : List Nat
deriving DecidableEq

/-- What a cache is created with. -/
structure Config where
  multiInst : Bool
  writer : Bool
  durability : Bool
  srcTime : Bool
  instOrder : Bool
  autoDisp : Bool
  mustAck : Bool
  exclusive : Bool
  deadline : Bool
  refType : Bool
  builtin : Bool
  maxDepth : Nat
  maxSamples : Nat
deriving DecidableEq

structure Qos where
  keepAll : Bool
  depth : Int32
  maxSamples : Int32
  maxInstances : Int32
  maxSamplesPerInstance : Int32
  durability : Bool
  srcTime : Bool
  instOrder : Bool
  autoDisp : Bool
  exclusive : Bool
  deadline : Bool
deriving DecidableEq

/-- The last sample of each instance, without limits. -/
def Qos.keepLast : Qos where
  keepAll := false
  depth := 1
  maxSamples := -1
  maxInstances := -1
  maxSamplesPerInstance := -1
  durability := false
  srcTime := false
  instOrder := false
  autoDisp := true
  exclusive := false
  deadline := false

def qtHistoryValid (q : Qos) : Bool := q.keepAll || 1 ≤ q.depth

def toUnsigned (n : Int32) : Nat := n.toUInt32.toNat

def qtResourceLimitsValid (q : Qos) : Bool :=
  !((q.maxSamples ≠ -1 && q.maxSamples < 1) || (q.maxInstances ≠ -1 && q.maxInstances < 1) ||
    (q.maxSamplesPerInstance ≠ -1 && q.maxSamplesPerInstance < 1) ||
    toUnsigned q.maxSamples < toUnsigned q.maxSamplesPerInstance)

def limit (n : Int32) : Nat := if n = -1 then 2 ^ 32 - 1 else toUnsigned n

def hcNew (q : Qos) (writer builtin keys refType : Bool) : Config where
  multiInst := keys
  writer := writer
  durability := q.durability
  srcTime := q.srcTime
  instOrder := q.instOrder
  autoDisp := q.autoDisp
  mustAck := q.keepAll
  exclusive := q.exclusive
  deadline := q.deadline
  refType := refType
  builtin := builtin
  maxDepth :=
    if q.keepAll then if keys then limit q.maxSamplesPerInstance else limit q.maxSamples else toUnsigned q.depth
  maxSamples := limit q.maxSamples

structure State where
  changes : List Change
  instances : List Instance
  wack : Nat → Nat
  unread : Nat → Bool
  kind : Kind
  newView : Bool
  dispCnt : Nat
  noWCnt : Nat
  lastSeqnr : Nat
  monitor : Bool
  readers : Bool
  blocked : Bool
  nextUid : Nat

def State.init : State where
  changes := []
  instances := []
  wack := fun _ => 0
  unread := fun _ => false
  kind := .notAliveUnregistered
  newView := true
  dispCnt := 0
  noWCnt := 0
  lastSeqnr := 0
  monitor := false
  readers := false
  blocked := false
  nextUid := 0

inductive Ret where
  | ok
  | timeout
  | noData
  | badParameter
deriving DecidableEq

/-- How many of the changes are samples. -/
def nData (l : List Change) : Nat := l.countP (fun c => c.kind = .alive)

/-! ## Lists of changes -/

/-- `!FTIME_LT (t, u)`.  The macro is `(t1) < (t2)`, so that the negation applies to the left operand alone. -/
def notFtimeLt (t u : Int) : Bool := (if t = 0 then (1 : Int) else 0) < u

/-- `ccref_add`.  The body of the search loop is `break`: it ends in its first round, with `prev_lrp` NULL, and the
change goes to the head. -/
def ccrefAdd (ordered : Bool) (l : List Change) (c : Change) : List Change :=
  match l.getLast? with
  | none => [c]
  | some tail => if !ordered || notFtimeLt c.time tail.time then l ++ [c] else c :: l

def dropRef (u : Nat) (l : List Change) : List Change := l.filter (fun c => c.uid ≠ u)

/-! ## Instances -/

def State.inst? (s : State) (h : Nat) : Option Instance := s.instances.find? (fun i => i.handle = h)

def State.modify (s : State) (h : Nat) (f : Instance → Instance) : State :=
  { s with instances := s.instances.map fun i => if i.handle = h then f i else i }

/-- The changes of an instance, or of a cache without keys. -/
def State.listOf (s : State) : Option Nat → List Change
  | some h => match s.inst? h with
    | some i => i.list
    | none => []
  | none => s.changes

def hcFreeInstance (s : State) (h : Nat) : State :=
  match s.inst? h with
  | none => s
  | some i =>
    { s with
      instances := s.instances.filter (fun j => j.handle ≠ h)
      changes := s.changes.filter fun c => !i.list.any fun d => d.uid = c.uid }

/-- The second half of `hc_remove_i`.  A change that is not in the list of the instance is left where it is. -/
def State.unlink (s : State) (ip : Option Nat) (c : Change) : State :=
  match ip with
  | none => { s with changes := dropRef c.uid s.changes }
  | some h =>
    if (s.listOf (some h)).any (fun d => d.uid = c.uid) then
      { s.modify h (fun i => { i with list := dropRef c.uid i.list }) with changes := dropRef c.uid s.changes }
    else s

def hcChangeRemove (cfg : Config) (s : State) (c : Change) : State :=
  if cfg.multiInst then
    { s.modify c.handle (fun i => { i with list := dropRef c.uid i.list }) with changes := dropRef c.uid s.changes }
  else { s with changes := dropRef c.uid s.changes }

/-! ## Acknowledgements -/

/-- `c_wack` has 11 bits. -/
def decWack (n : Nat) : Nat := (n + 2047) % 2048

/-- The change that an acknowledgement is for, sought between head and tail. -/
def ackTarget (l : List Change) (sn : Nat) : Option Change :=
  match l.head?, l.getLast? with
  | some first, some last =>
    if l.length = 1 then
      if sn = first.seqnr then some first else none
    else if sn < first.seqnr ∨ last.seqnr < sn then none
    else l.find? fun c => c.seqnr = sn
  | _, _ => none

def State.sweep (s : State) (ip : Option Nat) : State :=
  match ip with
  | none => s
  | some h =>
    match s.inst? h with
    | some i => if i.kind.unregistered && i.list.isEmpty && !i.registered && !i.wait then hcFreeInstance s h else s
    | none => s

/-- `hc_acknowledged`.  The removal it may do is `hc_remove_i` of a change without outstanding acknowledgements and
with `rel` = 0, which neither waits nor blocks. -/
def hcAcknowledged (cfg : Config) (s : State) (ip : Option Nat) (sn : Nat) : State :=
  match ackTarget (s.listOf ip) sn with
  | none => s
  | some c =>
    let s1 := { s with wack := Function.update s.wack c.uid (decWack (s.wack c.uid)) }
    if decWack (s.wack c.uid) ≠ 0 then s1
    else
      let s2 := if !cfg.durability || (c.kind.unregistered && (s.listOf ip).length == 1) then s1.unlink ip c else s1
      s2.sweep ip

def Config.ip (cfg : Config) (h : Nat) : Option Nat := if cfg.multiInst then some h else none

/-- What happens while `hc_wait_acked` sleeps. -/
structure Wait where
  acks : List (Nat × Nat)
  timeout : Bool

def State.setWait (s : State) (ip : Option Nat) (b : Bool) : State :=
  match ip with
  | some h => s.modify h fun i => { i with wait := b }
  | none => s

def hcWaitAcked (cfg : Config) (s : State) (ip : Option Nat) (w : Wait) : State :=
  (w.acks.foldl (fun s a => hcAcknowledged cfg s (cfg.ip a.1) a.2) (s.setWait ip true)).setWait ip false

/-- A change that is not acknowledged is waited for, or refused. -/
def hcRemoveI (cfg : Config) (w : Wait) (s : State) (ip : Option Nat) (c : Change) (rel : Bool) : State × Ret :=
  if cfg.mustAck then
    if s.wack c.uid ≠ 0 then
      if w.timeout then (hcWaitAcked cfg s ip w, .timeout) else ((hcWaitAcked cfg s ip w).unlink ip c, .ok)
    else if !cfg.writer && rel then ({ s with blocked := true }, .noData)
    else (s.unlink ip c, .ok)
  else (s.unlink ip c, .ok)

def hcSeqnrInfo (s : State) : Nat × Nat :=
  match s.changes.head? with
  | some c => (c.seqnr, s.lastSeqnr)
  | none => (s.lastSeqnr + 1, s.lastSeqnr)

end Qeo.Cache
