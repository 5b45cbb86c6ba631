import QeoCore.CacheAdd
import QeoCore.Trace
import Mathlib.Data.List.Nodup
/-!
# CacheRun — the events of a history cache, and what one of them does to its lists

Every function of the cache is made of quiet moves (`Calm`: changes and instances leave, nothing enters) and of
insertions (`insertChange`).
-/
namespace Qeo.Cache

open List
open Relation (ReflTransGen)

variable {s t : State} {ip : Option Nat} {f : Instance → Instance} {i j : Instance} {fuel : Nat} {env : Env}

/-- What happens to a cache: registering, adding, unregistering or disposing, taking (or a lifespan ends),
acknowledging, freeing an instance, removing a writer, reading; the monitor, local readers and filter nodes come or go.
-/
inductive Event where
  | register (h : Nat) (explicit : Bool)
  | add (h : Nat) (d : Sample) (env : Env)
  | unregister (h : Nat) (t : Int) (env : Env)
  | dispose (h : Nat) (t : Int) (env : Env)
  | take (u : Nat)
  | ack (h sn : Nat)
  | free (h : Nat)
  | remWriter (w : Nat) (t : Int) (env : Nat → Env)
  | observe (monitor readers : Bool)
  | seen (h u : Nat)
  | filter (h : Nat) (b : Bool)

def Instance.new (h : Nat) (explicit : Bool) : Instance where
  handle := h
  list := []
  kind := .notAliveUnregistered
  newView := true
  wait := false
  registered := explicit
  dispCnt := 0
  noWCnt := 0
  tbf := false
  owner := 0
  writers := []

def step (cfg : Config) (fuel : Nat) (s : State) : Event → Option State
  | .register h explicit =>
    if !cfg.multiInst then none
    else match s.inst? h with
      | some _ => some (s.modify h fun i => { i with registered := i.registered || explicit })
      | none => some { s with instances := s.instances ++ [.new h explicit] }
  | .add h d env => (hcAddInst cfg fuel env s h d).map fun r => r.1
  | .unregister h t env => (hcUnregister cfg fuel env s h t).map fun r => r.1
  | .dispose h t env => (hcDispose cfg fuel env s h t).map fun r => r.1
  | .take u => (s.changes.find? fun c => c.uid = u).map fun c => hcChangeRemove cfg s c
  | .ack h sn => if cfg.writer then some (hcAcknowledged cfg s (cfg.ip h) sn) else none
  | .free h => some (hcFreeInstance s h)
  | .remWriter w t env => if cfg.writer then none else hcRemWriterRemoved cfg fuel env w t s
  | .observe monitor readers => if cfg.writer then some { s with monitor := monitor, readers := readers } else none
  | .seen h u => some { s.modify h (fun i => { i with newView := false }) with
      unread := Function.update s.unread u false }
  | .filter h b => some (s.modify h fun i => { i with tbf := b })

/-! ## Quiet moves -/

def Idle (cfg : Config) (s : State) : Prop :=
  cfg.writer = true ∨ (∀ u, s.wack u = 0) ∧ s.monitor = false ∧ s.readers = false

inductive Calm (cfg : Config) : State → State → Prop
  | fields {s t : State} : t.changes = s.changes → t.instances = s.instances → t.lastSeqnr = s.lastSeqnr →
    t.nextUid = s.nextUid → (Idle cfg s → Idle cfg t) → Calm cfg s t
  | wait {s : State} (h : Nat) (b : Bool) : Calm cfg s (s.modify h fun i => { i with wait := b })
  | unlink {s : State} (ip : Option Nat) (c : Change) : ip.isSome = cfg.multiInst → Calm cfg s (s.unlink ip c)
  | free {s : State} (h : Nat) : Calm cfg s (hcFreeInstance s h)

abbrev Calms (cfg : Config) : State → State → Prop := ReflTransGen (Calm cfg)

structure Instance.Kept (i j : Instance) : Prop where
  handle : j.handle = i.handle
  kind : j.kind = i.kind
  writers : j.writers = i.writers
  owner : j.owner = i.owner
  list : j.list.Sublist i.list

theorem Instance.Kept.refl (i : Instance) : i.Kept i := ⟨rfl, rfl, rfl, rfl, .refl _⟩

theorem Instance.Kept.trans (h : i.Kept j) (h' : j.Kept k) : i.Kept k :=
  ⟨h'.handle.trans h.handle, h'.kind.trans h.kind, h'.writers.trans h.writers, h'.owner.trans h.owner,
    h'.list.trans h.list⟩

theorem mem_modify : j ∈ (s.modify h f).instances ↔ ∃ i ∈ s.instances, (if i.handle = h then f i else i) = j := by
  unfold State.modify
  rw [mem_map]

theorem kept_modify (hf : ∀ i : Instance, i.Kept (f i))
    (hj : j ∈ (s.modify h f).instances) : ∃ i ∈ s.instances, i.Kept j := by
  obtain ⟨i, hi, rfl⟩ := mem_modify.1 hj
  refine ⟨i, hi, ?_⟩
  split
  · exact hf i
  · exact .refl i

theorem dropRef_sublist (u : Nat) (l : List Change) : (dropRef u l).Sublist l := filter_sublist

theorem kept_dropRef (u : Nat) (i : Instance) : i.Kept { i with list := dropRef u i.list } :=
  ⟨rfl, rfl, rfl, rfl, dropRef_sublist u i.list⟩

theorem kept_wait (b : Bool) (i : Instance) : i.Kept { i with wait := b } := ⟨rfl, rfl, rfl, rfl, .refl _⟩

theorem handles_modify (hf : ∀ i, (f i).handle = i.handle) :
    (s.modify h f).instances.map (fun i => i.handle) = s.instances.map fun i => i.handle := by
  unfold State.modify
  rw [map_map]
  apply map_congr_left
  intro i _
  show (if i.handle = h then f i else i).handle = i.handle
  split
  · exact hf i
  · rfl

structure Shrunk (s t : State) : Prop where
  changes : t.changes.Sublist s.changes
  instances : ∀ j ∈ t.instances, ∃ i ∈ s.instances, i.Kept j
  handles : (t.instances.map fun i => i.handle).Sublist (s.instances.map fun i => i.handle)
  lastSeqnr : t.lastSeqnr = s.lastSeqnr
  nextUid : t.nextUid = s.nextUid

theorem Shrunk.refl (s : State) : Shrunk s s := ⟨.refl _, fun j hj => ⟨j, hj, .refl j⟩, .refl _, rfl, rfl⟩

theorem Shrunk.trans (h : Shrunk s t) (h' : Shrunk t u) : Shrunk s u := by
  refine ⟨h'.changes.trans h.changes, fun k hk => ?_, h'.handles.trans h.handles, h'.lastSeqnr.trans h.lastSeqnr,
    h'.nextUid.trans h.nextUid⟩
  obtain ⟨j, hj, hjk⟩ := h'.instances k hk
  obtain ⟨i, hi, hij⟩ := h.instances j hj
  exact ⟨i, hi, hij.trans hjk⟩

theorem shrunk_modify (s : State) (h : Nat) (hf : ∀ i : Instance, i.Kept (f i))
    (hl : l.Sublist s.changes) : Shrunk s { s.modify h f with changes := l } := by
  refine ⟨hl, fun j hj => kept_modify hf hj, ?_, rfl, rfl⟩
  rw [handles_modify fun i => (hf i).handle]

theorem Calm.shrunk (h : Calm cfg s t) : Shrunk s t := by
  cases h with
  | fields hc hi hl hn _ =>
    refine ⟨hc ▸ .refl _, ?_, hi ▸ .refl _, hl, hn⟩
    rw [hi]
    exact fun j hj => ⟨j, hj, .refl j⟩
  | wait h b => exact shrunk_modify s h (kept_wait b) (.refl _)
  | unlink ip c _ =>
    unfold State.unlink
    split
    · exact ⟨dropRef_sublist _ _, fun j hj => ⟨j, hj, .refl j⟩, .refl _, rfl, rfl⟩
    · split
      · exact shrunk_modify s _ (kept_dropRef c.uid) (dropRef_sublist _ _)
      · exact .refl s
  | free h =>
    unfold hcFreeInstance
    split
    · exact .refl s
    · exact ⟨filter_sublist, fun j hj => ⟨j, (mem_filter.1 hj).1, .refl j⟩, filter_sublist.map _, rfl, rfl⟩

theorem Calms.shrunk (h : Calms cfg s t) : Shrunk s t := by
  induction h with
  | refl => exact .refl s
  | tail _ h ih => exact ih.trans h.shrunk

/-! ## The functions that only remove are quiet -/

variable {cfg : Config} {lp : State → List Change}

theorem unlink_idle (ip : Option Nat) (c : Change) (h : Idle cfg s) : Idle cfg (s.unlink ip c) := by
  unfold State.unlink
  split
  · exact h
  · split
    · exact h
    · exact h

theorem hcFreeInstance_idle (h : Nat) (hi : Idle cfg s) : Idle cfg (hcFreeInstance s h) := by
  unfold hcFreeInstance
  split
  · exact hi
  · exact hi

theorem Calm.idle (h : Calm cfg s t) (hi : Idle cfg s) : Idle cfg t := by
  cases h with
  | fields _ _ _ _ h => exact h hi
  | wait h b => exact hi
  | unlink ip c _ => exact unlink_idle ip c hi
  | free h => exact hcFreeInstance_idle h hi

theorem Calms.idle (h : Calms cfg s t) (hi : Idle cfg s) : Idle cfg t := by
  induction h with
  | refl => exact hi
  | tail _ h ih => exact h.idle ih

theorem isSome_ip (cfg : Config) (h : Nat) : (cfg.ip h).isSome = cfg.multiInst := by
  unfold Config.ip
  cases cfg.multiInst <;> rfl

theorem setWait_calms (s : State) (ip : Option Nat) (b : Bool) : Calms cfg s (s.setWait ip b) := by
  cases ip with
  | none => exact .refl
  | some h => exact .single (.wait h b)

theorem sweep_calms (s : State) (ip : Option Nat) : Calms cfg s (s.sweep ip) := by
  unfold State.sweep
  split
  · exact .refl
  split
  · split
    · exact .single (.free _)
    · exact .refl
  · exact .refl

theorem hcAcknowledged_calms (hw : cfg.writer = true) (s : State) (hip : ip.isSome = cfg.multiInst)
    (sn : Nat) : Calms cfg s (hcAcknowledged cfg s ip sn) := by
  unfold hcAcknowledged
  split
  · exact .refl
  rename_i c _
  have h1 : Calms cfg s { s with wack := Function.update s.wack c.uid (decWack (s.wack c.uid)) } :=
    .single (.fields rfl rfl rfl rfl fun _ => .inl hw)
  split
  · exact h1
  apply ReflTransGen.trans _ (sweep_calms _ ip)
  split
  · exact h1.tail (.unlink ip c hip)
  · exact h1

theorem hcWaitAcked_calms (hw : cfg.writer = true) (s : State) (ip : Option Nat) (w : Wait) :
    Calms cfg s (hcWaitAcked cfg s ip w) := by
  refine ReflTransGen.trans ?_ (setWait_calms _ ip false)
  generalize hs : s.setWait ip true = s1
  have h1 : Calms cfg s s1 := hs ▸ setWait_calms s ip true
  clear hs
  induction w.acks generalizing s1 with
  | nil => exact h1
  | cons a as ih => exact ih _ (h1.trans (hcAcknowledged_calms hw s1 (isSome_ip cfg a.1) a.2))

section
variable (hi : Idle cfg s) (hip : ip.isSome = cfg.multiInst)
include hi hip

theorem hcRemoveI_calms (w : Wait) (c : Change) (rel : Bool) : Calms cfg s (hcRemoveI cfg w s ip c rel).1 := by
  unfold hcRemoveI
  split
  · split
    · rename_i hwack
      have hw : cfg.writer = true := hi.resolve_right fun h => hwack (h.1 c.uid)
      split
      · exact hcWaitAcked_calms hw s ip w
      · exact (hcWaitAcked_calms hw s ip w).tail (.unlink ip c hip)
    · split
      · exact .single (.fields rfl rfl rfl rfl fun h => h)
      · exact .single (.unlink ip c hip)
  · exact .single (.unlink ip c hip)

theorem evict_calms (h : evict cfg fuel rel wait ip lp again s = some (t, r)) : Calms cfg s t := by
  apply DoWhile.doWhile_inv (fun sr : State × Ret => Calms cfg s sr.1) _ .refl h
  intro k sr sr' hs hb
  obtain ⟨c, -, rfl⟩ := Option.map_eq_some_iff.1 hb
  exact hs.trans (hcRemoveI_calms (hs.idle hi) hip _ c rel)

theorem evictDepth_calms (h : evictDepth cfg fuel env s ip k = some (t, r)) : Calms cfg s t := by
  unfold evictDepth at h
  split at h
  · exact evict_calms hi hip h
  · cases h
    exact .refl

theorem evictSamples_calms (h : evictSamples cfg fuel env s ip k = some (t, r)) : Calms cfg s t := by
  unfold evictSamples at h
  split at h
  · exact evict_calms hi hip h
  · cases h
    exact .refl

end

/-! ## The new change -/

def insertChange (cfg : Config) (s : State) (ip : Option Nat) (c : Change) : State :=
  let s1 := { s with
    changes := ccrefAdd cfg.srcTime s.changes c
    lastSeqnr := if cfg.writer then s.lastSeqnr + 1 else s.lastSeqnr }
  match ip with
  | some h => s1.modify h fun i => { i.enter c.kind with list := ccrefAdd cfg.srcTime i.list c }
  | none => s1

structure Stamped (cfg : Config) (s : State) (c c' : Change) : Prop where
  uid : c'.uid = c.uid
  kind : c'.kind = c.kind
  writer : c'.writer = c.writer
  handle : c'.handle = c.handle
  time : c'.time = c.time
  seqnr : cfg.writer = true → c'.seqnr = s.lastSeqnr + 1

section
variable (i : Instance) (k : Kind)

@[simp] theorem handle_enter : (i.enter k).handle = i.handle := by
  unfold Instance.enter
  grind

@[simp] theorem list_enter : (i.enter k).list = i.list := by
  unfold Instance.enter
  grind

@[simp] theorem writers_enter : (i.enter k).writers = i.writers := by
  unfold Instance.enter
  grind

@[simp] theorem owner_enter : (i.enter k).owner = i.owner := by
  unfold Instance.enter
  grind

@[simp] theorem kind_enter : (i.enter k).kind = k := by
  unfold Instance.enter
  grind

end

theorem stamped_stamp (s : State) (m n : Nat) (c : Change) : Stamped cfg s c (stamp cfg s m n c).2 := by
  unfold stamp
  split
  · exact ⟨rfl, rfl, rfl, rfl, rfl, fun _ => rfl⟩
  · exact ⟨rfl, rfl, rfl, rfl, rfl, fun h => absurd h ‹_›⟩

theorem modify_modify (s : State) (h : Nat) (g : Instance → Instance)
    (hf : ∀ i, (f i).handle = i.handle) : (s.modify h f).modify h g = s.modify h fun i => g (f i) := by
  unfold State.modify
  rw [map_map]
  congr 1
  apply map_congr_left
  intro i _
  show (if (if i.handle = h then f i else i).handle = h then g (if i.handle = h then f i else i)
    else if i.handle = h then f i else i) = if i.handle = h then g (f i) else i
  by_cases hi : i.handle = h
  · rw [if_pos hi, if_pos ((hf i).trans hi), if_pos hi]
  · rw [if_neg hi, if_neg hi, if_neg hi]

theorem hcAddI_calms (hip : ip.isSome = cfg.multiInst) (env : Env) (s : State) (c : Change) :
    Calms cfg (enqueue cfg env s ip c) (hcAddI cfg env s ip c) := by
  unfold hcAddI
  dsimp only
  split
  · have h1 : Calms cfg (enqueue cfg env s ip c) ((enqueue cfg env s ip c).unlink ip c) := .single (.unlink ip c hip)
    split
    · split
      · split
        · exact h1.tail (.free _)
        · exact h1
      · exact h1
    · exact h1
  · exact .refl

theorem idle_update (u n : Nat) (hm : t.monitor = s.monitor) (hr : t.readers = s.readers)
    (hw : t.wack = Function.update s.wack u (if s.monitor || s.readers then n else 0)) (hi : Idle cfg s) :
    Idle cfg t := by
  rcases hi with hi | ⟨h0, hm0, hr0⟩
  · exact .inl hi
  refine .inr ⟨fun v => ?_, hm.trans hm0, hr.trans hr0⟩
  rw [hw, hm0, hr0]
  by_cases hv : v = u
  · rw [hv, Function.update_self]
    rfl
  · rw [Function.update_of_ne hv]
    exact h0 v

theorem insertChange_idle (ip : Option Nat) (c : Change) (hi : Idle cfg s) :
    Idle cfg (insertChange cfg s ip c) := by
  cases ip <;> exact hi

structure Alike (s t : State) : Prop where
  changes : t.changes = s.changes
  instances : t.instances = s.instances
  nextUid : t.nextUid = s.nextUid
  wack : t.wack = s.wack
  monitor : t.monitor = s.monitor
  readers : t.readers = s.readers

theorem alike_enter (s : State) (k : Kind) : Alike s (s.enter k) ∧ (s.enter k).lastSeqnr = s.lastSeqnr := by
  unfold State.enter
  constructor
  · constructor <;> grind
  · grind

theorem alike_stamp (cfg : Config) (s : State) (m n : Nat) (c : Change) : Alike s (stamp cfg s m n c).1 ∧
    (stamp cfg s m n c).1.lastSeqnr = if cfg.writer then s.lastSeqnr + 1 else s.lastSeqnr := by
  unfold stamp
  constructor
  · constructor <;> grind
  · grind

theorem Alike.idle_enqueue (h : Alike s t) (env : Env) (ip : Option Nat) (c : Change)
    (hi : Idle cfg s) : Idle cfg (enqueue cfg env t ip c) := by
  have hw : (enqueue cfg env t ip c).wack =
      Function.update s.wack c.uid (if s.monitor || s.readers then env.acks % 2048 else 0) := by
    rw [← h.wack, ← h.monitor, ← h.readers]
    cases ip <;> rfl
  cases ip with
  | none | some h' => exact idle_update c.uid _ h.monitor h.readers hw hi

theorem enqueue_none_calm (env : Env) (s : State) (m n : Nat) (c : Change) :
    Calm cfg (insertChange cfg s none (stamp cfg s m n c).2)
      (enqueue cfg env ((stamp cfg s m n c).1.enter c.kind) none (stamp cfg s m n c).2) := by
  obtain ⟨he, hl⟩ := alike_enter (stamp cfg s m n c).1 c.kind
  obtain ⟨hs, hl'⟩ := alike_stamp cfg s m n c
  have h : Alike s ((stamp cfg s m n c).1.enter c.kind) :=
    ⟨he.changes.trans hs.changes, he.instances.trans hs.instances, he.nextUid.trans hs.nextUid,
      he.wack.trans hs.wack, he.monitor.trans hs.monitor, he.readers.trans hs.readers⟩
  refine .fields ?_ h.instances (hl.trans hl') h.nextUid fun hi => h.idle_enqueue env none _ hi
  show ccrefAdd _ _ _ = ccrefAdd _ _ _
  rw [h.changes]

theorem enqueue_some_calm (env : Env) (s : State) (h m n : Nat) (c : Change) :
    Calm cfg (insertChange cfg s (some h) (stamp cfg s m n c).2)
      (enqueue cfg env ((stamp cfg s m n c).1.modify h fun i => i.enter c.kind) (some h) (stamp cfg s m n c).2) := by
  have hk : (stamp cfg s m n c).2.kind = c.kind := (stamped_stamp s m n c).kind
  obtain ⟨hs, hl⟩ := alike_stamp cfg s m n c
  refine .fields ?_ ?_ hl hs.nextUid fun hi => ?_
  · show ccrefAdd _ (stamp cfg s m n c).1.changes _ = ccrefAdd _ _ _
    rw [hs.changes]
  · show (((stamp cfg s m n c).1.modify h fun i => i.enter c.kind).modify h _).instances = _
    rw [modify_modify _ h _ fun i => handle_enter i c.kind]
    unfold insertChange State.modify
    rw [hs.instances, hk]
    simp
  · exact hs.idle_enqueue env (some h) (stamp cfg s m n c).2 hi

/-! ## Lookups -/

abbrev State.Handles (s : State) : Prop := (s.instances.map fun i => i.handle).Nodup

theorem inst?_mem (hi : s.inst? h = some i) : i ∈ s.instances ∧ i.handle = h :=
  ⟨mem_of_find?_eq_some hi, by simpa using find?_some hi⟩

theorem eq_of_handle (hs : s.Handles) (hi : i ∈ s.instances) (hj : j ∈ s.instances)
    (h : i.handle = j.handle) : i = j := inj_on_of_nodup_map hs hi hj h

theorem inst?_eq (hs : s.Handles) (hi : i ∈ s.instances) : s.inst? i.handle = some i := by
  cases hf : s.inst? i.handle with
  | none => exact absurd (decide_eq_true rfl) (find?_eq_none.1 hf i hi)
  | some j => rw [eq_of_handle hs (inst?_mem hf).1 hi (inst?_mem hf).2]

theorem listOf_some (hi : s.inst? h = some i) : s.listOf (some h) = i.list := by
  show (match s.inst? h with | some i => i.list | none => []) = _
  rw [hi]

theorem listOf_none (hi : s.inst? h = none) : s.listOf (some h) = [] := by
  show (match s.inst? h with | some i => i.list | none => []) = _
  rw [hi]

theorem listOf_eq (hs : s.Handles) (hi : i ∈ s.instances) :
    s.listOf (some i.handle) = i.list := listOf_some (inst?_eq hs hi)

theorem Shrunk.listOf (h : Shrunk s t) (hs : s.Handles) (ip : Option Nat) :
    (t.listOf ip).Sublist (s.listOf ip) := by
  cases ip with
  | none => exact h.changes
  | some n =>
    cases hj : t.inst? n with
    | none =>
      rw [listOf_none hj]
      exact nil_sublist _
    | some j =>
      obtain ⟨i, hi, hk⟩ := h.instances j (inst?_mem hj).1
      have hn : i.handle = n := hk.handle.symm.trans (inst?_mem hj).2
      rw [listOf_some hj, ← hn, listOf_eq hs hi]
      exact hk.list

theorem nData_le_of_sublist (h : l.Sublist l') : nData l ≤ nData l' := h.countP_le

/-! ## What one `hc_add` does -/

theorem evictDepth_room (h : evictDepth cfg fuel env s ip .alive = some (t, .ok)) :
    nData (t.listOf ip) < cfg.maxDepth := by
  unfold evictDepth at h
  split at h
  · obtain ⟨_, _, -, -, ha⟩ := DoWhile.doWhile_last (fun _ => True) (fun _ _ _ _ _ _ => trivial) trivial h
    simpa using ha
  rename_i hf
  cases h
  unfold depthFull at hf
  simp at hf
  exact hf.2

theorem evictSamples_room (h : evictSamples cfg fuel env s ip .alive = some (t, .ok)) :
    nData t.changes < cfg.maxSamples := by
  unfold evictSamples at h
  split at h
  · obtain ⟨_, _, -, -, ha⟩ := DoWhile.doWhile_last (fun _ => True) (fun _ _ _ _ _ _ => trivial) trivial h
    have hlt : t.changes.length < cfg.maxSamples := by simpa using ha
    exact Nat.lt_of_le_of_lt countP_le_length hlt
  rename_i hf
  cases h
  unfold samplesFull at hf
  simp at hf
  exact hf.2

structure Room (cfg : Config) (s : State) (ip : Option Nat) : Prop where
  depth : nData (s.listOf ip) < cfg.maxDepth
  samples : nData s.changes < cfg.maxSamples

inductive Added (cfg : Config) (ip : Option Nat) (c : Change) (s t : State) : Ret → Prop
  | rejected {r : Ret} : Calms cfg s t → r ≠ .ok → Added cfg ip c s t r
  | inserted {u : State} {c' : Change} : Calms cfg s u → (c.kind = .alive → Room cfg u ip) → Stamped cfg u c c' →
    (∀ h, ip = some h → ∃ i ∈ u.instances, i.handle = h) → Calms cfg (insertChange cfg u ip c') t →
    Added cfg ip c s t .ok

theorem hcAddChange_added (hs : s.Handles) (hi : Idle cfg s) (hip : ip.isSome = cfg.multiInst)
    (h : hcAddChange cfg fuel env s ip c = some (t, r)) : Added cfg ip c s t r := by
  obtain ⟨⟨s1, r1⟩, h1, h⟩ := Option.bind_eq_some_iff.1 h
  have hc1 : Calms cfg s s1 := evictDepth_calms hi hip h1
  split at h
  · cases h
    exact .rejected hc1 ‹_›
  rename_i hr1
  obtain rfl : r1 = .ok := not_not.1 hr1
  obtain ⟨⟨s2, r2⟩, h2, h⟩ := Option.bind_eq_some_iff.1 h
  have hc12 : Calms cfg s1 s2 := evictSamples_calms (hc1.idle hi) hip h2
  have hc2 : Calms cfg s s2 := hc1.trans hc12
  split at h
  · cases h
    exact .rejected hc2 ‹_›
  rename_i hr2
  obtain rfl : r2 = .ok := not_not.1 hr2
  have hroom : c.kind = .alive → Room cfg s2 ip := by
    intro hk
    rw [hk] at h1 h2
    have hs1 : s1.Handles := hc1.shrunk.handles.nodup hs
    exact ⟨Nat.lt_of_le_of_lt (nData_le_of_sublist (hc12.shrunk.listOf hs1 ip)) (evictDepth_room h1),
      evictSamples_room h2⟩
  split at h
  · cases h
    exact .inserted hc2 hroom (stamped_stamp s2 _ _ c) nofun
      ((ReflTransGen.single (enqueue_none_calm env s2 _ _ c)).trans (hcAddI_calms hip env _ _))
  split at h
  · cases h
  rename_i i hi2
  cases h
  exact .inserted hc2 hroom (stamped_stamp s2 _ _ c)
    (fun _ h => Option.some.inj h ▸ ⟨i, inst?_mem hi2⟩)
    ((ReflTransGen.single (enqueue_some_calm env s2 _ _ _ c)).trans (hcAddI_calms hip env _ _))

end Qeo.Cache
