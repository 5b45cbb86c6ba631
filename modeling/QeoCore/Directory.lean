import QeoCore.SkipList
import QeoCore.Linked
import Mathlib.Data.List.Lex
import Mathlib.Order.Fin.Basic
/-!
# Directory — the instances of a cache by key and by handle (`cache.c`, `skiplist.c`)

A cache with few instances chains them in one list.  With more it keeps two skiplists: one by handle, and one by key
hash, each node of which is the head of a chain of the instances with that hash.  Both chains use `i_next`.

The memory is explicit: `mem` gives the record at an address, and an address is never used twice, so that a read of a
freed record is a fault (`none`), as is a NULL pointer and a loop that does not end.  What the samples of an instance
decide (`Info`) is changed by the rest of the cache in any way.
-/
namespace Qeo.Directory

open Linked

abbrev Octet := Fin 256

def Octet.zero : Octet := 0

abbrev KeyHash := List Octet

def memcmp (a b : KeyHash) : Ordering := LinearOrder.toOrd.compare a b

abbrev Handle := UInt32

/-- What a cache is created with; `hash` is MD5, `level` the random height of a new skiplist node. -/
structure Config where
  keySize : Nat
  secureH : Bool
  writer : Bool
  mustAck : Bool
  maxDepth : Nat
  maxSamples : Nat
  maxInst : Nat
  hash : List Octet → KeyHash
  level : Nat → Nat

/-- Does a key fit into its hash? -/
def Config.short (cfg : Config) : Bool := cfg.keySize != 0 && decide (cfg.keySize ≤ 16) && !cfg.secureH

structure Key (cfg : Config) where
  bytes : List Octet
  nonempty : bytes ≠ []
  sized : cfg.short → bytes.length = cfg.keySize

def Config.hashFromKey (cfg : Config) (k : Key cfg) : KeyHash :=
  if cfg.short then k.bytes ++ List.replicate (16 - cfg.keySize) 0 else cfg.hash k.bytes

/-- What the samples of an instance decide. -/
structure Info where
  nchanges : Nat
  ndata : Nat
  time : Int
  unregistered : Bool
  recover : Bool
  deriving DecidableEq

/-- `INSTANCE`; its key is stored only when it does not fit into the hash. -/
structure Inst where
  next : Option Nat
  handle : Handle
  hash : KeyHash
  key : Option (List Octet)
  registered : Bool
  info : Info

abbrev Mem := Nat → Option Inst

def links : Links Inst where
  next := Inst.next
  setNext p ip := { ip with next := p }
  next_setNext _ _ := rfl
  setNext_setNext _ _ _ := rfl

abbrev HashList := SkipList.Nodes (Option Nat)
abbrev HandleList := SkipList.Nodes Nat

/-- The union of `hc_inst_head`, `hc_inst_tail` and `hc_hashes`, `hc_handles`, told apart by `hc_skiplists`. -/
inductive Rep
  | list (head tail : Option Nat)
  | skip (hashes : HashList) (handles : HandleList)

/-- `fresh` and `nodes` are the next unused addresses, `slWalk` counts the walks that are under way. -/
structure State where
  mem : Mem
  fresh : Nat
  nodes : Nat
  rep : Rep
  ninstances : Nat
  nchanges : Nat
  ndata : Nat
  lastHandle : Handle
  recycle : Bool
  slWalk : Nat

def State.init : State where
  mem := fun _ => none
  fresh := 0
  nodes := 0
  rep := .list none none
  ninstances := 0
  nchanges := 0
  ndata := 0
  lastHandle := 0
  recycle := false
  slWalk := 0

def maxInstLlist : Nat := 12
def minInstLlist : Nat := 8
def maxInstHandle : Handle := 0xffffffff

def Config.keyBytes (cfg : Config) (ip : Inst) : List Octet :=
  match ip.key with
  | some k => k
  | none => ip.hash.take cfg.keySize

/-! ## The skiplists -/

def hashCmpFct (mem : Mem) (hp : KeyHash) (d : Option Nat) : Option Ordering :=
  (d.bind mem).map fun ip => memcmp ip.hash hp

/-- `handle_cmp_fct`: the sign of a difference of two ints, which may overflow. -/
def handleCmpFct (mem : Mem) (h : Handle) (a : Nat) : Option Ordering :=
  (mem a).map fun ip => compare (ip.handle.toInt32 - h.toInt32).toInt 0

structure Lists where
  mem : Mem
  nodes : Nat
  hashes : HashList
  handles : HandleList

/-- Puts an instance in front of the chain of a hash node. -/
def Lists.chain (ls : Lists) (node a : Nat) : Option Lists :=
  match SkipList.node? ls.hashes node, ls.mem a with
  | some n, some ip =>
    some { ls with mem := Function.update ls.mem a (some { ip with next := n.data }),
                   hashes := SkipList.store ls.hashes node (some a) }
  | _, _ => none

/-- Enters an instance in the skiplist by handle. -/
def Lists.enlist (cfg : Config) (ls : Lists) (h : Handle) (a : Nat) : Option Lists :=
  (SkipList.insert ls.handles (handleCmpFct ls.mem h) ls.nodes (cfg.level ls.nodes) a).map fun r =>
    { ls with nodes := ls.nodes + 1, handles := SkipList.store r.1 r.2.1.addr a }

def Lists.convert (cfg : Config) (ls : Lists) (a : Nat) : Option Lists :=
  match ls.mem a with
  | none => none
  | some ip =>
    match SkipList.insert ls.hashes (hashCmpFct ls.mem ip.hash) ls.nodes (cfg.level ls.nodes) none with
    | none => none
    | some r =>
      (Lists.chain { ls with nodes := ls.nodes + 1, hashes := r.1 } r.2.1.addr a).bind fun ls =>
        ls.enlist cfg ip.handle a

def State.convertToLong (cfg : Config) (s : State) (head : Option Nat) : Option State :=
  match addrs links s.mem s.fresh head with
  | none => none
  | some l =>
    (l.foldlM (Lists.convert cfg) ⟨s.mem, s.nodes, SkipList.empty, SkipList.empty⟩).map fun ls =>
      { s with mem := ls.mem, nodes := ls.nodes, rep := .skip ls.hashes ls.handles }

/-- One visit of `hc_cvt_fct`: the instance is appended to the list. -/
def cvtFct (c : Mem × Option Nat × Option Nat) (a : Nat) : Option (Mem × Option Nat × Option Nat) :=
  match pushBack links c.1 c.2.1 c.2.2 a with
  | none => none
  | some (mem, head, tail) =>
    match mem a with
    | none => none
    | some ip => some (Function.update mem a (some { ip with next := none }), head, tail)

def State.convertToShort (s : State) (handles : HandleList) : Option State :=
  ((handles.nodes.map SkipList.Node.data).foldlM cvtFct (s.mem, none, none)).map fun c =>
    { s with mem := c.1, rep := .list c.2.1 c.2.2 }

/-! ## Lookups -/

def State.getInstanceHandle (s : State) (h : Handle) : Option (Option Nat) :=
  match s.rep with
  | .list head _ => (search links s.mem (fun ip => ip.handle == h) s.fresh none head).map (Option.map Prod.snd)
  | .skip _ handles => (SkipList.search handles (handleCmpFct s.mem h)).map (Option.map SkipList.Node.data)

def Inst.canRecover (ip : Inst) : Bool := ip.info.nchanges == 0 && ip.info.unregistered && ip.info.recover

def older (old : Option (Nat × Inst)) (p : Nat × Inst) : Option (Nat × Inst) :=
  if p.2.canRecover && (old.all fun o => decide (p.2.info.time < o.2.info.time)) then some p else old

/-- The instances in the order in which they are visited. -/
def State.walk (s : State) : Option (List Nat) :=
  match s.rep with
  | .list head _ => addrs links s.mem s.fresh head
  | .skip _ handles => some (handles.nodes.map SkipList.Node.data)

section
variable (cfg : Config) (s : State)

/-- The instance that may be thrown out for a new one: the oldest that has no samples and no writers. -/
def State.recoverable : Option (Option (Nat × Inst)) :=
  if cfg.writer then some none
  else
    match s.walk with
    | none => none
    | some l => (l.mapM fun a => (s.mem a).map fun ip => (a, ip)).map fun l => l.foldl older none

inductive RejectCause
  | accepted
  | instanceLimit
  | samplesLimit
  | samplesPerInstanceLimit
  deriving DecidableEq

structure Answer where
  inst : Option Nat
  handle : Handle
  cause : Option RejectCause

def Answer.notAccepted (cause : Option RejectCause) : Answer := ⟨none, 0, cause⟩

inductive Add
  | lookup
  | newH
  | setH (h : Handle)
  deriving DecidableEq

/-- The flags of a lookup; `ooo` counts the samples that are out of order. -/
structure Mode where
  add : Add
  ooo : Nat
  cause : Bool

def Mode.adds (m : Mode) : Bool := m.add != .lookup

def Mode.reject (m : Mode) (c : RejectCause) : Answer := .notAccepted (if m.cause then some c else none)

/-- The limits of a reliable cache, for an instance that exists. -/
def checkLimits (m : Mode) (a : Nat) (ip : Inst) : Answer :=
  if cfg.maxDepth ≤ ip.info.ndata then .notAccepted (some .samplesPerInstanceLimit)
  else if cfg.maxSamples ≤ s.ndata + m.ooo then .notAccepted (some .samplesLimit)
  else ⟨some a, ip.handle, some .accepted⟩

def hcCheck (m : Mode) (a : Nat) : Option Answer :=
  (s.mem a).map fun ip =>
    if m.cause && m.adds && cfg.mustAck then checkLimits cfg s m a ip else ⟨some a, ip.handle, none⟩

end

/-! ## Freeing an instance -/

def State.freed (s : State) (a : Nat) (ip : Inst) : State :=
  { s with
    mem := Function.update s.mem a none
    ninstances := s.ninstances - 1
    nchanges := s.nchanges - ip.info.nchanges
    ndata := s.ndata - ip.info.ndata }

/-- Frees the record, and goes back to a list when few instances are left and nobody walks. -/
def State.release (s : State) (a : Nat) (ip : Inst) : Option State :=
  match s.rep with
  | .list _ _ => some (s.freed a ip)
  | .skip _ handles =>
    if s.ninstances - 1 ≤ minInstLlist ∧ s.slWalk = 0 then (s.freed a ip).convertToShort handles
    else some (s.freed a ip)

/-- Takes the instance with the handle out of the chain of its hash. -/
def unchain (mem : Mem) (fuel : Nat) (hashes : HashList) (n : SkipList.Node (Option Nat)) (h : Handle) :
    Option (Option (Mem × HashList × Nat)) :=
  match search links mem (fun ip => ip.handle == h) fuel none n.data with
  | none => none
  | some none => some none
  | some (some (prev, p)) =>
    match mem p with
    | none => none
    | some jp =>
      match prev with
      | none => some (some (mem, SkipList.store hashes n.addr jp.next, p))
      | some q =>
        match mem q with
        | none => none
        | some iq => some (some (Function.update mem q (some { iq with next := jp.next }), hashes, p))

def State.freeHashed (cfg : Config) (s : State) (hashes : HashList) (handles : HandleList) (h : Handle) (a : Nat)
    (ip : Inst) : Option State :=
  match SkipList.search hashes (hashCmpFct s.mem ip.hash) with
  | none => none
  | some none => State.release { s with rep := .skip hashes handles } a ip
  | some (some n) =>
    if cfg.short || ip.next == none then
      match SkipList.delete hashes (hashCmpFct s.mem ip.hash) with
      | none => none
      | some hashes => State.release { s with rep := .skip hashes handles } a ip
    else
      match unchain s.mem s.fresh hashes n h with
      | none => none
      | some none => some { s with rep := .skip hashes handles }
      | some (some (mem, hashes, p)) =>
        match mem p with
        | none => none
        | some jp => State.release { s with mem := mem, rep := .skip hashes handles } p jp

def State.instFree (cfg : Config) (s : State) (h : Handle) : Option State :=
  match s.rep with
  | .list head tail =>
    match search links s.mem (fun ip => ip.handle == h) s.fresh none head with
    | none => none
    | some none => some s
    | some (some (prev, a)) =>
      match s.mem a with
      | none => none
      | some ip =>
        match unlink links s.mem head tail prev ip.next with
        | none => none
        | some (mem, head, tail) => State.release { s with mem := mem, rep := .list head tail } a ip
  | .skip hashes handles =>
    match SkipList.search handles (handleCmpFct s.mem h) with
    | none => none
    | some none => some s
    | some (some n) =>
      match SkipList.delete handles (handleCmpFct s.mem h), s.mem n.data with
      | some handles, some ip => s.freeHashed cfg hashes handles h n.data ip
      | _, _ => none

/-! ## Adding an instance -/

def bump (last : Handle) (recycle : Bool) : Handle × Bool :=
  if maxInstHandle ≤ last then (1, true) else (last + 1, recycle)

/-- The next handle; once they have wrapped around, the next one that is not in use. -/
def State.nextHandle (s : State) : Nat → Handle → Bool → Option (Handle × Bool)
  | 0, _, _ => none
  | fuel + 1, last, recycle =>
    let (last, recycle) := bump last recycle
    if recycle then
      match s.getInstanceHandle last with
      | none => none
      | some none => some (last, recycle)
      | some (some _) => s.nextHandle fuel last recycle
    else some (last, recycle)

def State.allotHandle (s : State) : Add → Option (Handle × Handle × Bool)
  | .setH h => some (h, s.lastHandle, s.recycle)
  | _ => (s.nextHandle (2 ^ 32) s.lastHandle s.recycle).map fun r => (r.1, r.1, r.2)

def newInst (cfg : Config) (k : Key cfg) (h : Handle) : Inst where
  next := none
  handle := h
  hash := cfg.hashFromKey k
  key := if cfg.short then none else some k.bytes
  registered := false
  info := ⟨0, 0, 0, true, false⟩

/-- Links a new instance, in the list or in both skiplists. -/
def State.enter (cfg : Config) (s : State) (node : Option Nat) (h : Handle) (a : Nat) : Option State :=
  match s.rep with
  | .list head tail => (pushBack links s.mem head tail a).map fun r => { s with mem := r.1, rep := .list r.2.1 r.2.2 }
  | .skip hashes handles =>
    match node with
    | none => none
    | some node =>
      ((Lists.chain ⟨s.mem, s.nodes, hashes, handles⟩ node a).bind fun ls => ls.enlist cfg h a).map fun ls =>
        { s with mem := ls.mem, nodes := ls.nodes, rep := .skip ls.hashes ls.handles }

def State.allocate (cfg : Config) (s : State) (k : Key cfg) (h last : Handle) (recycle : Bool) : State :=
  { s with
    mem := Function.update s.mem s.fresh (some (newInst cfg k h))
    fresh := s.fresh + 1
    lastHandle := last
    recycle := recycle }

def State.counted (s : State) : State := { s with ninstances := s.ninstances + 1 }

section
variable (cfg : Config) (s : State)

def State.recovered : Option (Nat × Inst) → Option State
  | none => some s
  | some r => s.instFree cfg r.2.handle

/-- A new instance, after the recovered one has been freed. -/
def State.create (r : Option (Nat × Inst)) (node : Option Nat) (k : Key cfg) (add : Add) :
    Option (State × Answer) :=
  match s.recovered cfg r with
  | none => none
  | some s =>
    match s.allotHandle add with
    | none => none
    | some (h, last, recycle) =>
      ((s.allocate cfg k h last recycle).enter cfg node h s.fresh).map fun t => (t.counted, ⟨some s.fresh, h, none⟩)

/-- A key whose hash is in the skiplist already. -/
def State.collide (r : Option (Nat × Inst)) (n : SkipList.Node (Option Nat)) (k : Key cfg)
    (m : Mode) : Option (State × Answer) :=
  match n.data with
  | none => none
  | some a =>
    if cfg.short then (hcCheck cfg s m a).map fun ans => (s, ans)
    else
      match search links s.mem (fun ip => ip.key == some k.bytes) s.fresh none (some a) with
      | none => none
      -- The instance handed out is the one the node points to, not the one that was found.
      | some (some _) => (hcCheck cfg s m a).map fun ans => (s, ans)
      | some none => if m.adds then s.create cfg r (some n.addr) k m.add else some (s, .notAccepted none)

def State.samplesFull (m : Mode) : Bool :=
  m.cause && decide (cfg.maxSamples ≤ s.nchanges + m.ooo)

def State.toRecover (m : Mode) : Option (Option (Nat × Inst)) :=
  if m.adds ∧ cfg.maxInst ≤ s.ninstances then s.recoverable cfg else some none

/-- A lookup by key in the skiplists. -/
def State.viaHash (hashes : HashList) (handles : HandleList) (k : Key cfg) (m : Mode) :
    Option (State × Answer) :=
  let hp := cfg.hashFromKey k
  match s.toRecover cfg m with
  | none => none
  | some r =>
    if !m.adds || (decide (cfg.maxInst ≤ s.ninstances) && r.isNone) || s.samplesFull cfg m then
      match SkipList.search hashes (hashCmpFct s.mem hp) with
      | none => none
      | some none =>
        if !m.adds then some (s, .notAccepted none)
        else if cfg.maxInst ≤ s.ninstances then some (s, m.reject .instanceLimit)
        else some (s, m.reject .samplesLimit)
      | some (some n) => s.collide cfg r n k m
    else
      match SkipList.insert hashes (hashCmpFct s.mem hp) s.nodes (cfg.level s.nodes) none with
      | none => none
      | some (hashes, n, true) =>
        State.create cfg { s with nodes := s.nodes + 1, rep := .skip hashes handles } r (some n.addr) k m.add
      | some (_, n, false) => s.collide cfg r n k m

def State.getInstanceKey (k : Key cfg) (m : Mode) : Option (State × Answer) :=
  match s.rep with
  | .skip hashes handles => s.viaHash cfg hashes handles k m
  | .list head _ =>
    match search links s.mem (fun ip => cfg.keyBytes ip == k.bytes) s.fresh none head with
    | none => none
    | some (some (_, a)) => (hcCheck cfg s m a).map fun ans => (s, ans)
    | some none =>
      match s.toRecover cfg m with
      | none => none
      | some r =>
        if !m.adds || (decide (cfg.maxInst ≤ s.ninstances) && r.isNone) then some (s, m.reject .instanceLimit)
        else if s.samplesFull cfg m then some (s, m.reject .samplesLimit)
        else if maxInstLlist ≤ s.ninstances then
          match s.convertToLong cfg head with
          | none => none
          | some s =>
            match s.rep with
            | .list _ _ => none
            | .skip hashes handles => s.viaHash cfg hashes handles k m
        else s.create cfg r none k m.add

end

/-! ## Requests and runs -/

def State.markRegistered (s : State) (a : Option Nat) : State :=
  match a with
  | none => s
  | some a => { s with mem := Function.update s.mem a ((s.mem a).map fun ip => { ip with registered := true }) }

inductive Event (cfg : Config)
  /-- `hc_register`. -/
  | register (k : Key cfg)
  /-- `hc_lookup_key`. -/
  | lookupKey (k : Key cfg)
  /-- `hc_lookup_hash`, with the hash of the key. -/
  | lookupHash (k : Key cfg) (m : Mode)
  /-- `hc_inst_free`, and every other caller of `hc_free_instance`. -/
  | instFree (h : Handle)
  /-- The samples of an instance change, and those of the cache. -/
  | samples (a : Nat) (info : Info) (nchanges ndata : Nat)
  /-- The begin of `hc_walk_instances`. -/
  | enterWalk
  /-- The end of `hc_walk_instances`. -/
  | leaveWalk

def lookupMode : Mode := ⟨.lookup, 0, false⟩
def registerMode : Mode := ⟨.newH, 0, false⟩

def Event.request? {cfg : Config} : Event cfg → Option (Key cfg × Mode)
  | .register k => some (k, registerMode)
  | .lookupKey k => some (k, lookupMode)
  | .lookupHash k m => some (k, m)
  | _ => none

/-- A request and its answer. -/
def call (cfg : Config) (s : State) : Event cfg → Option (State × Option Answer)
  | .register k => (s.getInstanceKey cfg k registerMode).map fun r => (r.1.markRegistered r.2.inst, some r.2)
  | .lookupKey k => (s.getInstanceKey cfg k lookupMode).map fun r => (r.1, some r.2)
  | .lookupHash k m => (s.getInstanceKey cfg k m).map fun r => (r.1, some r.2)
  | .instFree h => (s.instFree cfg h).map fun s => (s, none)
  | .samples a info nchanges ndata =>
    some ({ s with mem := Function.update s.mem a ((s.mem a).map fun ip => { ip with info := info }),
                   nchanges := nchanges, ndata := ndata }, none)
  | .enterWalk =>
    match s.rep with
    | .list _ _ => some (s, none)
    | .skip _ _ => if s.slWalk = 3 then none else some ({ s with slWalk := s.slWalk + 1 }, none)
  | .leaveWalk =>
    match s.rep with
    | .list _ _ => some (s, none)
    | .skip _ handles =>
      -- A walk that began in the list is not counted.
      if s.slWalk = 0 then some (s, none)
      else
        let s := { s with slWalk := s.slWalk - 1 }
        if s.slWalk = 0 ∧ s.ninstances ≤ minInstLlist then (s.convertToShort handles).map fun s => (s, none)
        else some (s, none)

def step (cfg : Config) (s : State) (e : Event cfg) : Option State := (call cfg s e).map Prod.fst

end Qeo.Directory
