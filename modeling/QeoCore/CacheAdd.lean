import QeoCore.Cache
import QeoCore.BinSearch
/-!
# CacheAdd — adding to the history cache (`cache.c`)

`hc_add` with its three eviction loops (`evict`), `hc_add_inst`, `hc_release`, `hc_rem_writer_removed`, and the events
of a cache.  A result `none` is a loop that does not end within `fuel` rounds, or a fault.
-/
namespace Qeo.Cache

open DoWhile

structure Sample where
  kind : Kind
  writer : Nat
  time : Int
  length : Nat
  db : Bool
deriving DecidableEq

/-- What the surroundings answer during `hc_add`: is the caller reliable, how many acknowledgements will be owed, what
the waits of the two loops bring, and the strengths and GUID order of the writers. -/
structure Env where
  rel : Bool
  acks : Nat
  depthWait : Nat → Wait
  samplesWait : Nat → Wait
  strength : Nat → Nat
  guidGt : Nat → Nat → Bool

/-! ## Writers of an instance -/

def hcLookupHandle (writers : List Nat) (w : Nat) : Nat × Bool := BinSearch.lookup writers w

/-- The writer with the highest strength; of equals the one with the smaller GUID. -/
def strongest (env : Env) : Nat × Nat → List Nat → Nat
  | (highW, _), [] => highW
  | (highW, highS), w :: ws =>
    if highW = 0 ∨ highS < env.strength w then strongest env (w, env.strength w) ws
    else if env.strength w = highS ∧ env.guidGt highW w then strongest env (w, highS) ws
    else strongest env (highW, highS) ws

def hcUpdateOwner (env : Env) (i : Instance) : Instance := { i with owner := strongest env (0, 0) i.writers }

def hcRemWriterGone (i : Instance) (w : Nat) : Option Instance :=
  match hcLookupHandle i.writers w with
  | (k, true) => some { i with writers := BinSearch.removeAt i.writers k }
  | (_, false) => none

def remWriter (cfg : Config) (env : Env) (i : Instance) (w : Nat) : Instance :=
  match hcRemWriterGone i w with
  | some j => if cfg.exclusive && w == j.owner then hcUpdateOwner env j else j
  | none => i

def addWriter (cfg : Config) (i : Instance) (w : Nat) : Instance × Bool :=
  match i.writers with
  | [] => ({ i with writers := [w], owner := if cfg.exclusive then w else 0 }, false)
  | [v] => if v = w then (i, false) else ({ i with writers := if v < w then [v, w] else [w, v] }, true)
  | ws =>
    match hcLookupHandle ws w with
    | (_, true) => (i, false)
    | (k, false) => ({ i with writers := BinSearch.insertAt ws k w }, true)

section
variable (cfg : Config) (env : Env) (i : Instance)

def dropWriter (w : Nat) : Instance :=
  if i.writers = [] ∨ i.writers = [w] then { i with writers := [], owner := 0 } else remWriter cfg env i w

def joinWriter (w : Nat) : Instance :=
  let j := addWriter cfg i w
  if cfg.exclusive && j.2 then hcUpdateOwner env j.1 else j.1

def updateWriters (c : Change) : Instance × Option Change :=
  if c.kind.unregistered then
    let j := dropWriter cfg env i c.writer
    if j.writers = [] then (j, some c)
    else if c.kind = .notAliveUnregistered then (j, none)
    else if cfg.exclusive && j.owner != 0 && c.writer != j.owner then (j, none)
    else (j, some { c with kind := { c.kind with unregistered := false } })
  else
    let j := joinWriter cfg env i c.writer
    if cfg.exclusive && j.owner != 0 && c.writer != j.owner then (j, none) else (j, some c)

end

/-! ## Eviction -/

section
variable (cfg : Config)

/-- Removes the head of a list until there is room. -/
def evict (fuel : Nat) (rel : Bool) (wait : Nat → Wait) (ip : Option Nat) (lp : State → List Change)
    (again : State → Bool) (s : State) : Option (State × Ret) :=
  doWhile (fun k sr => (lp sr.1).head?.map fun c => hcRemoveI cfg (wait k) sr.1 ip c rel)
    (fun sr => sr.2 = .ok && again sr.1) fuel 0 (s, .ok)

/-- Has the instance as many changes as the depth allows? -/
def depthFull (s : State) (ip : Option Nat) (k : Kind) : Bool :=
  (cfg.refType && cfg.maxDepth ≤ (s.listOf ip).length) || (k = .alive && cfg.maxDepth ≤ nData (s.listOf ip))

def evictDepth (fuel : Nat) (env : Env) (s : State) (ip : Option Nat) (k : Kind) :
    Option (State × Ret) :=
  if depthFull cfg s ip k then
    evict cfg fuel env.rel env.depthWait ip (fun s => s.listOf ip) (fun s => cfg.maxDepth ≤ nData (s.listOf ip)) s
  else some (s, .ok)

/-- Has the cache as many changes as the limits allow? -/
def samplesFull (s : State) (k : Kind) : Bool :=
  (cfg.refType && cfg.maxSamples ≤ s.changes.length) || (k = .alive && cfg.maxSamples ≤ nData s.changes)

def evictSamples (fuel : Nat) (env : Env) (s : State) (ip : Option Nat) (k : Kind) :
    Option (State × Ret) :=
  if samplesFull cfg s k then
    evict cfg fuel env.rel env.samplesWait ip (fun s => s.changes) (fun s => cfg.maxSamples ≤ s.changes.length) s
  else some (s, .ok)

end

/-! ## The new change -/

def enqueue (cfg : Config) (env : Env) (s : State) (ip : Option Nat) (c : Change) : State :=
  let s1 := { s with
    changes := ccrefAdd cfg.srcTime s.changes c
    wack := Function.update s.wack c.uid (if s.monitor || s.readers then env.acks % 2048 else 0) }
  match ip with
  | some h => s1.modify h fun i => { i with list := ccrefAdd cfg.srcTime i.list c }
  | none => s1

def hcAddI (cfg : Config) (env : Env) (s : State) (ip : Option Nat) (c : Change) : State :=
  let s1 := enqueue cfg env s ip c
  if cfg.writer && !cfg.durability && s1.wack c.uid == 0 then
    let s2 := s1.unlink ip c
    match ip with
    | some h => match s2.inst? h with
      | some i => if i.kind.unregistered && i.list.isEmpty then hcFreeInstance s2 h else s2
      | none => s2
    | none => s2
  else s1

/-- The instance takes over the kind of a change and counts its generations. -/
def Instance.enter (i : Instance) (k : Kind) : Instance :=
  if k = i.kind then i
  else
    let i1 := if i.kind.disposed then
        if k = .alive then { i with dispCnt := i.dispCnt + 1, newView := true } else i
      else if i.kind.unregistered then
        if k = .alive then { i with noWCnt := i.noWCnt + 1, newView := true } else i
      else i
    { i1 with kind := k, registered := if k.unregistered then false else i1.registered }

def State.enter (s : State) (k : Kind) : State :=
  if k = s.kind then s
  else
    let s1 := if s.kind.disposed then
        if k = .alive then { s with dispCnt := s.dispCnt + 1, newView := true } else s
      else if s.kind.unregistered then
        if k = .alive then { s with noWCnt := s.noWCnt + 1, newView := true } else s
      else s
    { s1 with kind := k }

/-- A writer numbers the change; a reader notes the generation. -/
def stamp (cfg : Config) (s : State) (dispCnt noWCnt : Nat) (c : Change) : State × Change :=
  if cfg.writer then ({ s with lastSeqnr := s.lastSeqnr + 1 }, { c with seqnr := s.lastSeqnr + 1 })
  else ({ s with unread := Function.update s.unread c.uid true }, { c with dispCnt := dispCnt, noWCnt := noWCnt })

section
variable (cfg : Config) (fuel : Nat) (env : Env)

variable (s : State)

def hcAddChange (ip : Option Nat) (c : Change) :
    Option (State × Ret) :=
  (evictDepth cfg fuel env s ip c.kind).bind fun d =>
    if d.2 ≠ .ok then some d
    else (evictSamples cfg fuel env d.1 ip c.kind).bind fun e =>
      if e.2 ≠ .ok then some e
      else match ip with
        | none =>
          let n := stamp cfg e.1 e.1.dispCnt e.1.noWCnt c
          some (hcAddI cfg env (n.1.enter c.kind) none n.2, .ok)
        | some h => match e.1.inst? h with
          | none => none
          | some i =>
            let n := stamp cfg e.1 i.dispCnt i.noWCnt c
            some (hcAddI cfg env (n.1.modify h fun i => i.enter c.kind) (some h) n.2, .ok)

def hcAdd (i : Instance) (c : Change) : Option (State × Ret) :=
  let s1 := if cfg.writer then s else s.modify i.handle fun j => (updateWriters cfg env j c).1
  match (if cfg.writer then some c else (updateWriters cfg env i c).2) with
  | none => some (s1, .ok)
  | some c1 =>
    -- An instance that is not alive takes another such change as a change of its state only.
    if i.kind ≠ .alive ∧ c1.kind ≠ .alive ∧ !cfg.builtin then
      let s2 := s1.modify i.handle fun j => { j with kind := j.kind.or c1.kind }
      some (
        if (i.kind.or c1.kind).unregistered && i.list.isEmpty && !i.tbf then hcFreeInstance s2 i.handle else s2, .ok)
    else hcAddChange cfg fuel env s1 (some i.handle) c1

def hcAddInst (h : Nat) (d : Sample) : Option (State × Ret) :=
  let c : Change := ⟨s.nextUid, d.kind, d.writer, h, d.time, 0, 0, 0, d.length, d.db⟩
  let s1 := { s with nextUid := s.nextUid + 1 }
  if cfg.multiInst then
    match s1.inst? h with
    | none => some (s1, .badParameter)
    | some i => hcAdd cfg fuel env s1 i c
  else hcAddChange cfg fuel env s1 none c

def hcRelease (h : Nat) (k : Kind) (w : Nat) (t : Int) :
    Option (State × Ret) :=
  if !cfg.durability && !s.monitor && !s.readers && !cfg.deadline then some (s, .ok)
  else hcAddInst cfg fuel { env with rel := false } s h ⟨k, w, t, 0, false⟩

def hcUnregister (h : Nat) (t : Int) : Option (State × Ret) :=
  hcRelease cfg fuel env s h (if cfg.autoDisp then .zombie else .notAliveUnregistered) 0 t

def hcDispose (h : Nat) (t : Int) : Option (State × Ret) :=
  hcRelease cfg fuel env s h .notAliveDisposed 0 t

end

/-- One visit of `hc_rem_writer_removed`. -/
def instRemWriter (cfg : Config) (fuel : Nat) (env : Nat → Env) (w : Nat) (t : Int) (s : State) (h : Nat) :
    Option State :=
  match s.inst? h with
  | none => some s
  | some i =>
    if i.writers = [] then some s
    else if i.writers = [w] then
      (hcRelease cfg fuel (env h) s h .notAliveUnregistered w t).map fun r => r.1
    else some (s.modify h fun j => remWriter cfg (env h) j w)

/-- `hc_rem_writer_removed`: the walk takes the next instance before it visits one, so that a visit may free it. -/
def hcRemWriterRemoved (cfg : Config) (fuel : Nat) (env : Nat → Env) (w : Nat) (t : Int) (s : State) : Option State :=
  if !cfg.multiInst then some s
  else (s.instances.map fun i => i.handle).foldlM (fun s h => instRemWriter cfg fuel env w t s h) s

end Qeo.Cache
