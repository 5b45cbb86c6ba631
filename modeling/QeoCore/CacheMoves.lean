import QeoCore.CacheRun
/-!
# CacheMoves — every event is still, or inserts one change between still moves

`Still` collects the moves of an event that insert nothing.  `Grown` is an event: still moves, and at most one insertion
among them.
-/
namespace Qeo.Cache

open List Option State Relation

variable {cfg : Config} {s s' t : State} {c : Change} {fuel : Nat} {ip : Option Nat}

inductive Tune (cfg : Config) : (Instance → Instance) → Prop
  | plain {f : Instance → Instance} : (∀ i, (f i).handle = i.handle) → (∀ i, (f i).list = i.list) →
    (∀ i, (f i).writers = i.writers) → (∀ i, (f i).owner = i.owner) → Tune cfg f
  | sample (env : Env) (c : Change) : Tune cfg fun i => (updateWriters cfg env i c).1
  | gone (env : Env) (w : Nat) : Tune cfg fun i => remWriter cfg env i w

theorem remWriter_lists (cfg : Config) (env : Env) (i : Instance) (w : Nat) :
    (remWriter cfg env i w).handle = i.handle ∧ (remWriter cfg env i w).list = i.list := by
  unfold remWriter hcRemWriterGone hcUpdateOwner
  grind

theorem addWriter_lists (cfg : Config) (i : Instance) (w : Nat) :
    (addWriter cfg i w).1.handle = i.handle ∧ (addWriter cfg i w).1.list = i.list := by
  unfold addWriter
  grind

theorem updateWriters_fst (cfg : Config) (env : Env) (i : Instance) (c : Change) : (updateWriters cfg env i c).1 =
    if c.kind.unregistered then dropWriter cfg env i c.writer else joinWriter cfg env i c.writer := by
  unfold updateWriters
  grind

theorem updateWriters_lists (cfg : Config) (env : Env) (i : Instance) (c : Change) :
    (updateWriters cfg env i c).1.handle = i.handle ∧ (updateWriters cfg env i c).1.list = i.list := by
  have h1 := remWriter_lists cfg env i c.writer
  have h2 := addWriter_lists cfg i c.writer
  rw [updateWriters_fst]
  unfold dropWriter joinWriter hcUpdateOwner
  grind

theorem Tune.lists (h : Tune cfg f) (i : Instance) : (f i).handle = i.handle ∧ (f i).list = i.list := by
  cases h with
  | plain hh hl _ _ => exact ⟨hh i, hl i⟩
  | sample env c => exact updateWriters_lists cfg env i c
  | gone env w => exact remWriter_lists cfg env i w

inductive Still (cfg : Config) : State → State → Prop
  | calm {s t : State} : Calm cfg s t → Still cfg s t
  | tune {s : State} (h : Nat) {f : Instance → Instance} : Tune cfg f → Still cfg s (s.modify h f)
  | uid {s : State} : Still cfg s { s with nextUid := s.nextUid + 1 }
  | take {s : State} (c : Change) : c ∈ s.changes → Still cfg s (hcChangeRemove cfg s c)
  | register {s : State} (h : Nat) (b : Bool) : cfg.multiInst = true → s.inst? h = none →
    Still cfg s { s with instances := s.instances ++ [.new h b] }

abbrev Stills (cfg : Config) : State → State → Prop := ReflTransGen (Still cfg)

theorem Calms.stills (h : Calms cfg s t) : Stills cfg s t := h.lift (fun s => s) fun _ _ => .calm

/-! ## The two lists mirror each other -/

/-- **The cache is well formed**: handles and changes are distinct, and the list of an instance holds exactly the cached
changes of its handle. -/
structure WF (cfg : Config) (s : State) : Prop where
  handles : s.Handles
  uids : (s.changes.map fun c => c.uid).Nodup
  fresh : ∀ c ∈ s.changes, c.uid < s.nextUid
  mirror : ∀ i ∈ s.instances, ∀ c, c ∈ i.list ↔ c ∈ s.changes ∧ c.handle = i.handle
  owned : cfg.multiInst = true → ∀ c ∈ s.changes, ∃ i ∈ s.instances, i.handle = c.handle
  single : cfg.multiInst = false → s.instances = []
  idle : Idle cfg s

theorem WF.eq_of_uid (hs : WF cfg s) (hc : c ∈ s.changes) (hd : d ∈ s.changes)
    (h : c.uid = d.uid) : c = d := inj_on_of_nodup_map hs.uids hc hd h

theorem mem_dropRef : c ∈ dropRef u l ↔ c ∈ l ∧ c.uid ≠ u := by
  unfold dropRef
  rw [mem_filter, decide_eq_true_eq]

theorem wf_init (cfg : Config) : WF cfg init where
  handles := nodup_nil
  uids := nodup_nil
  fresh := nofun
  mirror := nofun
  owned := nofun
  single := fun _ => rfl
  idle := .inr ⟨fun _ => rfl, rfl, rfl⟩

theorem WF.modify (hs : WF cfg s) (h : Nat)
    (hf : ∀ i, (f i).handle = i.handle ∧ (f i).list = i.list) : WF cfg (s.modify h f) where
  handles := by
    unfold Handles
    rw [handles_modify fun i => (hf i).1]
    exact hs.handles
  uids := hs.uids
  fresh := hs.fresh
  mirror := by
    intro j hj
    obtain ⟨i, hi, rfl⟩ := mem_modify.1 hj
    split
    · rw [(hf i).1, (hf i).2]
      exact hs.mirror i hi
    · exact hs.mirror i hi
  owned := by
    intro hm c hc
    obtain ⟨i, hi, hic⟩ := hs.owned hm c hc
    refine ⟨_, mem_modify.2 ⟨i, hi, rfl⟩, ?_⟩
    split
    · rw [(hf i).1, hic]
    · exact hic
  single := by
    intro hm
    unfold State.modify
    rw [hs.single hm]
    rfl
  idle := hs.idle

theorem WF.drop (hs : WF cfg s) (hd : d ∈ s.changes) :
    WF cfg { s.modify d.handle (fun i => { i with list := dropRef d.uid i.list }) with
      changes := dropRef d.uid s.changes } where
  handles := (shrunk_modify s d.handle (kept_dropRef d.uid) (dropRef_sublist _ _)).handles.nodup hs.handles
  uids := ((dropRef_sublist d.uid s.changes).map _).nodup hs.uids
  fresh := fun c hc => hs.fresh c (mem_dropRef.1 hc).1
  mirror := by
    intro j hj c
    obtain ⟨i, hi, rfl⟩ := mem_modify.1 hj
    rw [mem_dropRef]
    split
    · rw [mem_dropRef, hs.mirror i hi]
      tauto
    rename_i hne
    rw [hs.mirror i hi]
    constructor
    · rintro ⟨hc, hci⟩
      refine ⟨⟨hc, fun hu => hne ?_⟩, hci⟩
      rw [← hci, hs.eq_of_uid hc hd hu]
    · rintro ⟨⟨hc, -⟩, hci⟩
      exact ⟨hc, hci⟩
  owned := by
    intro hm c hc
    obtain ⟨i, hi, hic⟩ := hs.owned hm c (mem_dropRef.1 hc).1
    refine ⟨_, mem_modify.2 ⟨i, hi, rfl⟩, ?_⟩
    split <;> exact hic
  single := by
    intro hm
    unfold State.modify
    rw [hs.single hm]
    rfl
  idle := hs.idle

theorem WF.dropSingle (hs : WF cfg s) (hm : cfg.multiInst = false) (u : Nat) :
    WF cfg { s with changes := dropRef u s.changes } where
  handles := hs.handles
  uids := ((dropRef_sublist u s.changes).map _).nodup hs.uids
  fresh := fun c hc => hs.fresh c (mem_dropRef.1 hc).1
  mirror := by
    intro i hi
    rw [hs.single hm] at hi
    cases hi
  owned := fun hm' => absurd (hm.symm.trans hm') (by decide)
  single := hs.single
  idle := hs.idle

theorem any_uid {l : List Change} : (l.any fun d => d.uid = u) = true ↔ ∃ d ∈ l, d.uid = u := by
  simp

section
variable (hs : WF cfg s)
include hs

theorem WF.unlink (hip : ip.isSome = cfg.multiInst) (c : Change) : WF cfg (s.unlink ip c) := by
  unfold State.unlink
  split
  · exact hs.dropSingle hip.symm c.uid
  rename_i h
  split
  · rename_i hany
    obtain ⟨d, hd, hu⟩ := any_uid.1 hany
    cases hi : s.inst? h with
    | none =>
      rw [listOf_none hi] at hd
      cases hd
    | some i =>
      rw [listOf_some hi] at hd
      obtain ⟨hmem, hh⟩ := inst?_mem hi
      obtain ⟨hdc, hdh⟩ := (hs.mirror i hmem d).1 hd
      have := hs.drop hdc
      rwa [hdh, hh, hu] at this
  · exact hs

theorem WF.take (hc : c ∈ s.changes) : WF cfg (hcChangeRemove cfg s c) := by
  unfold hcChangeRemove
  split
  · exact hs.drop hc
  · exact hs.dropSingle (by simpa using ‹¬ cfg.multiInst = true›) c.uid

theorem WF.free (h : Nat) : WF cfg (hcFreeInstance s h) := by
  unfold hcFreeInstance
  split
  · exact hs
  rename_i i hi
  obtain ⟨hmem, hh⟩ := inst?_mem hi
  -- What leaves is what belongs to the instance.
  have hleft : ∀ c, c ∈ s.changes.filter (fun c => !i.list.any fun d => d.uid = c.uid) ↔
      c ∈ s.changes ∧ c.handle ≠ h := by
    intro c
    rw [mem_filter, Bool.not_eq_true', ← Bool.not_eq_true, any_uid]
    constructor
    · rintro ⟨hc, hn⟩
      exact ⟨hc, fun he => hn ⟨c, (hs.mirror i hmem c).2 ⟨hc, he.trans hh.symm⟩, rfl⟩⟩
    rintro ⟨hc, hn⟩
    refine ⟨hc, fun ⟨d, hd, hu⟩ => hn ?_⟩
    obtain ⟨hdc, hdh⟩ := (hs.mirror i hmem d).1 hd
    rw [← hs.eq_of_uid hdc hc hu, hdh, hh]
  refine ⟨(filter_sublist.map _).nodup hs.handles, (filter_sublist.map _).nodup hs.uids,
    fun c hc => hs.fresh c (mem_filter.1 hc).1, ?_, ?_, ?_, hs.idle⟩
  · intro j hj c
    obtain ⟨hj, hne⟩ := mem_filter.1 hj
    have hne : j.handle ≠ h := by simpa using hne
    rw [hs.mirror j hj, hleft]
    constructor
    · rintro ⟨hc, he⟩
      exact ⟨⟨hc, he ▸ hne⟩, he⟩
    · rintro ⟨⟨hc, -⟩, he⟩
      exact ⟨hc, he⟩
  · intro hm c hc
    obtain ⟨hc, hne⟩ := (hleft c).1 hc
    obtain ⟨j, hj, hjc⟩ := hs.owned hm c hc
    exact ⟨j, mem_filter.2 ⟨hj, by simpa [hjc] using hne⟩, hjc⟩
  · intro hm
    have := hs.single hm
    rw [this]
    rfl

theorem WF.calm (h : Calm cfg s t) : WF cfg t := by
  cases h with
  | fields hc hi _ hn hidle =>
    refine ⟨?_, hc ▸ hs.uids, hc ▸ hn ▸ hs.fresh, ?_, ?_, hi ▸ hs.single, hidle hs.idle⟩
    · unfold Handles
      rw [hi]
      exact hs.handles
    · rw [hi, hc]
      exact hs.mirror
    · rw [hi, hc]
      exact hs.owned
  | wait h b => exact hs.modify h fun _ => ⟨rfl, rfl⟩
  | unlink ip c hip => exact hs.unlink hip c
  | free h => exact hs.free h

theorem WF.calms (h : Calms cfg s t) : WF cfg t := by
  induction h with
  | refl => exact hs
  | tail _ h ih => exact ih.calm h

theorem WF.register (h : Nat) (b : Bool) (hm : cfg.multiInst = true)
    (hn : s.inst? h = none) : WF cfg { s with instances := s.instances ++ [.new h b] } := by
  have hnone : ∀ i ∈ s.instances, i.handle ≠ h := fun i hi => by simpa using find?_eq_none.1 hn i hi
  refine ⟨?_, hs.uids, hs.fresh, ?_, ?_, fun hm' => absurd (hm.symm.trans hm') (by decide), hs.idle⟩
  · show ((s.instances ++ [Instance.new h b]).map fun i => i.handle).Nodup
    rw [map_append, nodup_append]
    refine ⟨hs.handles, nodup_singleton _, ?_⟩
    intro x hx y hy
    obtain ⟨i, hi, rfl⟩ := mem_map.1 hx
    obtain rfl : y = h := mem_singleton.1 hy
    exact hnone i hi
  · intro i hi c
    rcases mem_append.1 hi with hi | hi
    · exact hs.mirror i hi c
    obtain rfl := mem_singleton.1 hi
    constructor
    · intro hc
      cases hc
    · rintro ⟨hc, hh⟩
      obtain ⟨j, hj, hjc⟩ := hs.owned hm c hc
      exact absurd (hjc.trans hh) (hnone j hj)
  · intro _ c hc
    obtain ⟨j, hj, hjc⟩ := hs.owned hm c hc
    exact ⟨j, mem_append_left _ hj, hjc⟩

theorem WF.still (h : Still cfg s t) : WF cfg t := by
  cases h with
  | calm h => exact hs.calm h
  | tune h hf => exact hs.modify h hf.lists
  | uid => exact ⟨hs.handles, hs.uids, fun c hc => Nat.lt_succ_of_lt (hs.fresh c hc), hs.mirror, hs.owned, hs.single,
      hs.idle⟩
  | take c hc => exact hs.take hc
  | register h b hm hn => exact hs.register h b hm hn

theorem WF.stills (h : Stills cfg s t) : WF cfg t := by
  induction h with
  | refl => exact hs
  | tail _ h ih => exact ih.still h

end

structure Fewer (s t : State) : Prop where
  changes : t.changes.Sublist s.changes
  instances : ∀ j ∈ t.instances, j.list = [] ∨ ∃ i ∈ s.instances, i.handle = j.handle ∧ j.list.Sublist i.list
  lastSeqnr : t.lastSeqnr = s.lastSeqnr

theorem Fewer.refl (s : State) : Fewer s s := ⟨.refl _, fun j hj => .inr ⟨j, hj, rfl, .refl _⟩, rfl⟩

theorem Fewer.trans (h : Fewer s t) (h' : Fewer t u) : Fewer s u := by
  refine ⟨h'.changes.trans h.changes, fun k hk => ?_, h'.lastSeqnr.trans h.lastSeqnr⟩
  rcases h'.instances k hk with h0 | ⟨j, hj, hjk, hl⟩
  · exact .inl h0
  rcases h.instances j hj with h0 | ⟨i, hi, hij, hl'⟩
  · rw [h0] at hl
    exact .inl (sublist_nil.1 hl)
  · exact .inr ⟨i, hi, hij.trans hjk, hl.trans hl'⟩

theorem Shrunk.fewer (h : Shrunk s t) : Fewer s t := by
  refine ⟨h.changes, fun j hj => ?_, h.lastSeqnr⟩
  obtain ⟨i, hi, hk⟩ := h.instances j hj
  exact .inr ⟨i, hi, hk.handle.symm, hk.list⟩

theorem Still.fewer (h : Still cfg s t) : Fewer s t := by
  cases h with
  | calm h => exact h.shrunk.fewer
  | tune h hf =>
    refine ⟨.refl _, fun j hj => ?_, rfl⟩
    obtain ⟨i, hi, rfl⟩ := mem_modify.1 hj
    refine .inr ⟨i, hi, ?_⟩
    split
    · rw [(hf.lists i).1, (hf.lists i).2]
      exact ⟨rfl, .refl _⟩
    · exact ⟨rfl, .refl _⟩
  | uid => exact ⟨.refl _, fun j hj => .inr ⟨j, hj, rfl, .refl _⟩, rfl⟩
  | take c hc =>
    unfold hcChangeRemove
    split
    · exact (shrunk_modify s _ (kept_dropRef c.uid) (dropRef_sublist _ _)).fewer
    · exact ⟨dropRef_sublist _ _, fun j hj => .inr ⟨j, hj, rfl, .refl _⟩, rfl⟩
  | register h b _ _ =>
    refine ⟨.refl _, fun j hj => ?_, rfl⟩
    rcases mem_append.1 hj with hj | hj
    · exact .inr ⟨j, hj, rfl, .refl _⟩
    · rw [mem_singleton.1 hj]
      exact .inl rfl

theorem Stills.fewer (h : Stills cfg s t) : Fewer s t := by
  induction h with
  | refl => exact .refl s
  | tail _ h ih => exact ih.trans h.fewer

/-! ## Insertion -/

theorem ccrefAdd_eq (b : Bool) (l : List Change) (c : Change) :
    ccrefAdd b l c = l ++ [c] ∨ ccrefAdd b l c = c :: l := by
  unfold ccrefAdd
  cases h : l.getLast? with
  | none =>
    rw [getLast?_eq_none_iff.1 h]
    exact .inl rfl
  | some tail =>
    dsimp only
    split
    · exact .inl rfl
    · exact .inr rfl

theorem ccrefAdd_perm (b : Bool) (l : List Change) (c : Change) : (ccrefAdd b l c).Perm (c :: l) := by
  rcases ccrefAdd_eq b l c with h | h
  · rw [h]
    exact perm_append_singleton c l
  · rw [h]

theorem mem_ccrefAdd : d ∈ ccrefAdd b l c ↔ d = c ∨ d ∈ l := by
  rw [(ccrefAdd_perm b l c).mem_iff, mem_cons]

/-- A change that is ready to be inserted: it is new, it belongs to the instance, there is room for it, and a writer has
given it the next sequence number. -/
structure Ready (cfg : Config) (s : State) (ip : Option Nat) (c : Change) : Prop where
  multi : ip.isSome = cfg.multiInst
  new : ∀ d ∈ s.changes, d.uid < c.uid
  bound : c.uid < s.nextUid
  instance_ : ∀ h, ip = some h → c.handle = h ∧ ∃ i ∈ s.instances, i.handle = h
  room : c.kind = .alive → Room cfg s ip
  seqnr : cfg.writer = true → c.seqnr = s.lastSeqnr + 1

theorem insertChange_changes (s : State) (ip : Option Nat) (c : Change) :
    (insertChange cfg s ip c).changes = ccrefAdd cfg.srcTime s.changes c := by
  cases ip <;> rfl

theorem mem_insertChange :
    j ∈ (insertChange cfg s ip c).instances ↔ ∃ i ∈ s.instances,
      (if ip = some i.handle then { i.enter c.kind with list := ccrefAdd cfg.srcTime i.list c } else i) = j := by
  cases ip with
  | none => simp [insertChange]
  | some h =>
    show j ∈ (State.modify _ h _).instances ↔ _
    rw [mem_modify]
    simp [eq_comm (a := h)]

theorem handles_insertChange (s : State) (ip : Option Nat) (c : Change) :
    ((insertChange cfg s ip c).instances.map fun i => i.handle) = s.instances.map fun i => i.handle := by
  cases ip with
  | none => rfl
  | some h => exact handles_modify fun i => handle_enter i c.kind

theorem WF.insert (hs : WF cfg s) (hc : Ready cfg s ip c) : WF cfg (insertChange cfg s ip c) where
  handles := by
    unfold Handles
    rw [handles_insertChange]
    exact hs.handles
  uids := by
    rw [insertChange_changes, ((ccrefAdd_perm cfg.srcTime s.changes c).map _).nodup_iff, map_cons, nodup_cons]
    refine ⟨fun h => ?_, hs.uids⟩
    obtain ⟨d, hd, hu⟩ := mem_map.1 h
    exact absurd hu (Nat.ne_of_lt (hc.new d hd))
  fresh := by
    have hn : (insertChange cfg s ip c).nextUid = s.nextUid := by cases ip <;> rfl
    intro d hd
    rw [insertChange_changes, mem_ccrefAdd] at hd
    rw [hn]
    rcases hd with rfl | hd
    · exact hc.bound
    · exact hs.fresh d hd
  mirror := by
    intro j hj d
    obtain ⟨i, hi, rfl⟩ := mem_insertChange.1 hj
    rw [insertChange_changes, mem_ccrefAdd]
    split
    · rename_i hip
      have hh : c.handle = i.handle := (hc.instance_ _ hip).1
      rw [mem_ccrefAdd, hs.mirror i hi, handle_enter]
      constructor
      · rintro (rfl | ⟨hd, he⟩)
        · exact ⟨.inl rfl, hh⟩
        · exact ⟨.inr hd, he⟩
      · rintro ⟨rfl | hd, he⟩
        · exact .inl rfl
        · exact .inr ⟨hd, he⟩
    rename_i hip
    rw [hs.mirror i hi]
    constructor
    · rintro ⟨hd, he⟩
      exact ⟨.inr hd, he⟩
    rintro ⟨rfl | hd, he⟩
    · cases hip' : ip with
      | none =>
        have hm : cfg.multiInst = false := by rw [← hc.multi, hip']; rfl
        rw [hs.single hm] at hi
        cases hi
      | some h => exact absurd (hip'.trans (by rw [← (hc.instance_ h hip').1, he])) hip
    · exact ⟨hd, he⟩
  owned := by
    intro hm d hd
    have hex : ∀ h, (∃ i ∈ s.instances, i.handle = h) → ∃ j ∈ (insertChange cfg s ip c).instances, j.handle = h := by
      rintro h ⟨i, hi, hh⟩
      refine ⟨_, mem_insertChange.2 ⟨i, hi, rfl⟩, ?_⟩
      split
      · exact (handle_enter i c.kind).trans hh
      · exact hh
    rw [insertChange_changes, mem_ccrefAdd] at hd
    apply hex
    rcases hd with rfl | hd
    · obtain ⟨h, hip⟩ := isSome_iff_exists.1 (hc.multi.trans hm)
      obtain ⟨hh, hi⟩ := hc.instance_ h hip
      exact hh ▸ hi
    · exact hs.owned hm d hd
  single := by
    intro hm
    have hip : ip = none := by simpa using hc.multi.trans hm
    rw [hip]
    exact hs.single hm
  idle := insertChange_idle ip c hs.idle

/-! ## Events -/

/-- Still moves, and at most one change that comes in, of which `p` holds. -/
inductive Grown (cfg : Config) (p : Option Nat → Change → Prop) (s s' : State) : Prop
  | still : Stills cfg s s' → Grown cfg p s s'
  | insert {u : State} {ip : Option Nat} {c : Change} : Stills cfg s u → Ready cfg u ip c → p ip c →
    Stills cfg (insertChange cfg u ip c) s' → Grown cfg p s s'

variable {p q : Option Nat → Change → Prop}

theorem Grown.mono (hpq : ∀ ip c, p ip c → q ip c) (h : Grown cfg p s s') : Grown cfg q s s' := by
  cases h with
  | still h => exact .still h
  | insert h hc hp h' => exact .insert h hc (hpq _ _ hp) h'

theorem WF.grown (hs : WF cfg s) (h : Grown cfg p s s') : WF cfg s' := by
  cases h with
  | still h => exact hs.stills h
  | insert h hc _ h' => exact ((hs.stills h).insert hc).stills h'

theorem Grown.before (h : Stills cfg s s1) (hg : Grown cfg p s1 s') : Grown cfg p s s' := by
  cases hg with
  | still h' => exact .still (h.trans h')
  | insert h' hc ht h'' => exact .insert (h.trans h') hc ht h''

/-- A change for an instance, from a sample of kind `k` and time `t`. -/
def Comes (ip : Option Nat) (k : Kind) (t : Int) (ip' : Option Nat) (c : Change) : Prop :=
  ip' = ip ∧ c.time = t ∧ (k = .alive → c.kind = .alive)

theorem Added.grown
    (hip : ip.isSome = cfg.multiInst) (hnew : ∀ d ∈ s.changes, d.uid < c.uid) (hbound : c.uid < s.nextUid)
    (hh : ∀ h, ip = some h → c.handle = h) (h : Added cfg ip c s s' r) : Grown cfg (Comes ip c.kind c.time) s s' := by
  cases h with
  | rejected h _ => exact .still h.stills
  | @inserted u c' h hroom hst hi h' =>
    refine .insert h.stills ⟨hip, ?_, ?_, ?_, ?_, hst.seqnr⟩ ⟨rfl, hst.time, hst.kind.trans⟩ h'.stills
    · intro d hd
      rw [hst.uid]
      exact hnew d (h.shrunk.changes.subset hd)
    · rw [hst.uid, h.shrunk.nextUid]
      exact hbound
    · exact fun n hn => ⟨hst.handle.trans (hh n hn), hi n hn⟩
    · rw [hst.kind]
      exact hroom

theorem updateWriters_kept (h : (updateWriters cfg env i c).2 = some c1) :
    c1.uid = c.uid ∧ c1.handle = c.handle ∧ c1.time = c.time ∧ (c.kind = .alive → c1.kind = .alive) := by
  have hk : Kind.alive.unregistered = false := rfl
  unfold updateWriters at h
  grind

theorem hcAdd_grown (hs : WF cfg s)
    (hm : cfg.multiInst = true) (hnew : ∀ d ∈ s.changes, d.uid < c.uid) (hbound : c.uid < s.nextUid)
    (hh : c.handle = i.handle) (h : hcAdd cfg fuel env s i c = some (s', r)) :
    Grown cfg (Comes (some i.handle) c.kind c.time) s s' := by
  unfold hcAdd at h
  generalize hs1 : (if cfg.writer then s else s.modify i.handle fun j => (updateWriters cfg env j c).1) = s1 at h
  have h1 : Stills cfg s s1 := by
    rw [← hs1]
    split
    · exact .refl
    · exact .single (.tune _ (.sample env c))
  have hc1 : s1.changes = s.changes ∧ s1.nextUid = s.nextUid := by
    rw [← hs1]
    split <;> exact ⟨rfl, rfl⟩
  split at h
  · cases h
    exact .still h1
  rename_i c1 hk
  have hc : c1.uid = c.uid ∧ c1.handle = c.handle ∧ c1.time = c.time ∧ (c.kind = .alive → c1.kind = .alive) := by
    split at hk
    · cases hk
      exact ⟨rfl, rfl, rfl, id⟩
    · exact updateWriters_kept hk
  split at h
  · have h2 : Stills cfg s (s1.modify i.handle fun j => { j with kind := j.kind.or c1.kind }) :=
      h1.tail (.tune _ (.plain (fun _ => rfl) (fun _ => rfl) (fun _ => rfl) fun _ => rfl))
    cases h
    split
    · exact .still (h2.tail (.calm (.free _)))
    · exact .still h2
  have hw := hs.stills h1
  have ha := hcAddChange_added hw.handles hw.idle (by rw [hm]; rfl) h
  refine .before h1 ((ha.grown (by rw [hm]; rfl) ?_ ?_ ?_).mono fun _ _ hp =>
    ⟨hp.1, hp.2.1.trans hc.2.2.1, fun hk => hp.2.2 (hc.2.2.2 hk)⟩)
  · rw [hc1.1, hc.1]
    exact hnew
  · rw [hc1.2, hc.1]
    exact hbound
  · rintro n hn
    rw [hc.2.1, hh]
    exact Option.some.inj hn

theorem hcAddInst_grown (hs : WF cfg s)
    (ha : hcAddInst cfg fuel env s h d = some (s', r)) : Grown cfg (Comes (cfg.ip h) d.kind d.time) s s' := by
  unfold hcAddInst at ha
  dsimp only at ha
  have h1 : Stills cfg s { s with nextUid := s.nextUid + 1 } := .single .uid
  have hw := hs.stills h1
  split at ha
  · rename_i hm
    split at ha
    · cases ha
      exact .still h1
    · rename_i i hi
      have hip : cfg.ip h = some i.handle := by rw [Config.ip, if_pos hm, (inst?_mem hi).2]
      rw [hip]
      exact .before h1 (hcAdd_grown hw hm hs.fresh (Nat.lt_succ_self _) (inst?_mem hi).2.symm ha)
  · rename_i hm
    have hip : (none : Option Nat).isSome = cfg.multiInst := by simpa using hm
    rw [Config.ip, if_neg hm]
    exact .before h1 ((hcAddChange_added hw.handles hw.idle hip ha).grown hip hs.fresh (Nat.lt_succ_self _)
      nofun)

theorem hcRelease_grown {t : Int}
    (hs : WF cfg s) (ha : hcRelease cfg fuel env s h k w t = some (s', r)) :
    Grown cfg (fun _ c => c.time = t) s s' := by
  unfold hcRelease at ha
  split at ha
  · cases ha
    exact .still .refl
  · exact (hcAddInst_grown hs ha).mono fun _ _ hp => hp.2.1

theorem instRemWriter_grown {t : Int}
    (hs : WF cfg s) (ha : instRemWriter cfg fuel env w t s h = some s') : Grown cfg (fun _ c => c.time = t) s s' := by
  unfold instRemWriter at ha
  split at ha
  · cases ha
    exact .still .refl
  split at ha
  · cases ha
    exact .still .refl
  split at ha
  · obtain ⟨⟨u, r⟩, hr, rfl⟩ := map_eq_some_iff.1 ha
    exact hcRelease_grown hs hr
  · cases ha
    exact .still (.single (.tune _ (.gone _ _)))

theorem foldlM_grown {t : Int} : ∀ {hs : List Nat} {s s' : State}, WF cfg s →
    hs.foldlM (fun s h => instRemWriter cfg fuel env w t s h) s = some s' →
    ReflTransGen (Grown cfg fun _ c => c.time = t) s s'
  | [], s, s', _, h => by
    cases h
    exact .refl
  | n :: ns, s, s', hs, h => by
    obtain ⟨s1, h1, h⟩ := bind_eq_some_iff.1 (foldlM_cons.symm.trans h)
    have hg := instRemWriter_grown hs h1
    exact .head hg (foldlM_grown (hs.grown hg) h)

theorem hcRemWriterRemoved_grown {t : Int} (hs : WF cfg s)
    (h : hcRemWriterRemoved cfg fuel env w t s = some s') : ReflTransGen (Grown cfg fun _ c => c.time = t) s s' := by
  unfold hcRemWriterRemoved at h
  split at h
  · cases h
    exact .refl
  · exact foldlM_grown hs h

def Event.time : Event → Option Int
  | .add _ d _ => some d.time
  | .unregister _ t _ => some t
  | .dispose _ t _ => some t
  | .remWriter _ t _ => some t
  | _ => none

/-- What a change is that the event brings in. -/
def Event.Brings (cfg : Config) : Event → Option Nat → Change → Prop
  | .add h d _ => Comes (cfg.ip h) d.kind d.time
  | e => fun _ c => e.time = some c.time

theorem Event.Brings.time {e : Event} (h : e.Brings cfg ip c) : e.time = some c.time := by
  cases e with
  | add h' d env => exact congrArg some h.2.1.symm
  | _ => exact h

/-- **An event inserts at most one change, a removed remote writer one for each instance.** -/
theorem step_grown (hs : WF cfg s) (h : step cfg fuel s e = some s') :
    Grown cfg (e.Brings cfg) s s' ∨ cfg.writer = false ∧ ReflTransGen (Grown cfg (e.Brings cfg)) s s' := by
  have htime : ∀ t (_ : Option Nat) (c : Change), c.time = t → some t = some c.time := fun _ _ _ h =>
    congrArg some h.symm
  cases e with
  | register n b =>
    left
    dsimp only [Cache.step] at h
    split at h
    · cases h
    rename_i hm
    split at h
    · cases h
      exact .still (.single (.tune n (.plain (fun _ => rfl) (fun _ => rfl) (fun _ => rfl) fun _ => rfl)))
    · cases h
      exact .still (.single (.register n b (by simpa using hm) ‹_›))
  | add n d env =>
    obtain ⟨⟨u, r⟩, hr, rfl⟩ := map_eq_some_iff.1 h
    exact .inl (hcAddInst_grown hs hr)
  | unregister n t env | dispose n t env =>
    obtain ⟨⟨u, r⟩, hr, rfl⟩ := map_eq_some_iff.1 h
    exact .inl ((hcRelease_grown hs hr).mono (htime t))
  | take u =>
    obtain ⟨c, hc, rfl⟩ := map_eq_some_iff.1 h
    exact .inl (.still (.single (.take c (mem_of_find?_eq_some hc))))
  | ack n sn =>
    dsimp only [Cache.step] at h
    split at h
    · cases h
      exact .inl (.still (hcAcknowledged_calms ‹_› s (isSome_ip cfg n) sn).stills)
    · cases h
  | free n =>
    cases h
    exact .inl (.still (.single (.calm (.free n))))
  | remWriter w t env =>
    dsimp only [Cache.step] at h
    split at h
    · cases h
    · exact .inr ⟨by simpa using ‹¬ cfg.writer = true›,
        (hcRemWriterRemoved_grown hs h).lift id fun _ _ hg => hg.mono (htime t)⟩
  | observe m r =>
    dsimp only [Cache.step] at h
    split at h
    · cases h
      exact .inl (.still (.single (.calm (.fields rfl rfl rfl rfl fun _ => .inl ‹_›))))
    · cases h
  | seen n u =>
    cases h
    refine .inl (.still (ReflTransGen.tail (.single (.tune n (f := fun i => { i with newView := false })
      (.plain (fun _ => rfl) (fun _ => rfl) (fun _ => rfl) fun _ => rfl)))
        (.calm (.fields rfl rfl rfl rfl fun h => h))))
  | filter n b =>
    cases h
    exact .inl (.still (.single (.tune n (.plain (fun _ => rfl) (fun _ => rfl) (fun _ => rfl) fun _ => rfl))))

/-- What holds on with every change that is inserted holds on with every event. -/
theorem step_induction {I : State → Prop} (hs : WF cfg s) (h0 : I s) (h : step cfg fuel s e = some s')
    (hI : ∀ {u u'}, WF cfg u → I u → Grown cfg (e.Brings cfg) u u' → I u') : WF cfg s' ∧ I s' := by
  have hg : ReflTransGen (Grown cfg (e.Brings cfg)) s s' := (step_grown hs h).elim .single And.right
  clear h
  induction hg with
  | refl => exact ⟨hs, h0⟩
  | tail _ h ih => exact ⟨ih.1.grown h, hI ih.1 ih.2 h⟩

theorem WF.step (hs : WF cfg s) (h : step cfg fuel s e = some s') : WF cfg s' :=
  (step_induction hs hs h fun _ hu hg => hu.grown hg).1

/-- **Every state a cache reaches is well formed.** -/
theorem wf_of_run (h : Trace.Run (step cfg fuel) ok init es s) : WF cfg s :=
  Trace.Run.invariant (fun _ s => WF cfg s) (wf_init cfg) (fun _ _ _ _ hs _ h => hs.step h) h

theorem holds_of_run {I : State → Prop} (h0 : I init)
    (hI : ∀ {s e s'}, WF cfg s → I s → ok s e → step cfg fuel s e = some s' → I s')
    (h : Trace.Run (step cfg fuel) ok init es s) : WF cfg s ∧ I s :=
  h.invariant (fun _ s => WF cfg s ∧ I s) ⟨wf_init cfg, h0⟩ fun _ _ _ _ hs hok h =>
    ⟨hs.1.step h, hI hs.1 hs.2 hok h⟩

end Qeo.Cache
