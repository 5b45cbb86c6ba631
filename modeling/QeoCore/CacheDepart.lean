import QeoCore.CacheLimits
/-!
# CacheDepart — the writers of an instance, and their departure

The list of writers of an instance is sorted, and the owner is one of them or nobody (`WritersOk`).  An instance that a
removed writer has for itself is unregistered through `hc_release`.
-/
namespace Qeo.Cache

open List Trace

variable {cfg : Config} {i : Instance} {s : State}

structure WritersOk (cfg : Config) (i : Instance) : Prop where
  sorted : i.writers.Pairwise (· < ·)
  owner : i.owner ∈ i.writers ∨ i.owner = 0
  shared : cfg.exclusive = false → i.owner = 0

theorem WritersOk.congr (h : WritersOk cfg i) (hw : j.writers = i.writers) (ho : j.owner = i.owner) :
    WritersOk cfg j := by
  refine ⟨?_, ?_, ?_⟩
  · rw [hw]
    exact h.sorted
  · rw [hw, ho]
    exact h.owner
  · rw [ho]
    exact h.shared

/-! ## The owner -/

theorem strongest_mem (env : Env) : ∀ (ws : List Nat) (p : Nat × Nat),
    strongest env p ws ∈ ws ∨ strongest env p ws = p.1
  | [], p => .inr rfl
  | w :: ws, (v, m) => by
    unfold strongest
    split
    · rcases strongest_mem env ws (w, env.strength w) with h | h
      · exact .inl (mem_cons_of_mem _ h)
      · exact .inl (h ▸ mem_cons_self)
    split
    · rcases strongest_mem env ws (w, m) with h | h
      · exact .inl (mem_cons_of_mem _ h)
      · exact .inl (h ▸ mem_cons_self)
    · rcases strongest_mem env ws (v, m) with h | h
      · exact .inl (mem_cons_of_mem _ h)
      · exact .inr h

theorem owner_hcUpdateOwner (env : Env) (i : Instance) :
    (hcUpdateOwner env i).owner ∈ i.writers ∨ (hcUpdateOwner env i).owner = 0 := strongest_mem env i.writers (0, 0)

theorem WritersOk.updateOwner (hs : i.writers.Pairwise (· < ·)) (he : cfg.exclusive = true) (env : Env) :
    WritersOk cfg (hcUpdateOwner env i) :=
  ⟨hs, owner_hcUpdateOwner env i, fun h => absurd (he.symm.trans h) (by decide)⟩

/-! ## A writer leaves, a writer comes -/

def Gone (w : Nat) (i : Instance) : Prop := w ∉ i.writers ∧ i.owner ≠ w

section
variable (hi : WritersOk cfg i)
include hi

theorem remWriter_ok (env : Env) (w : Nat) :
    WritersOk cfg (remWriter cfg env i w) ∧ (w ≠ 0 → Gone w (remWriter cfg env i w)) := by
  unfold remWriter hcRemWriterGone hcLookupHandle
  rcases hl : BinSearch.lookup i.writers w with ⟨k, _ | _⟩
  · -- It was not there.
    have hn := BinSearch.not_mem_of_lookup_false hi.sorted hl
    refine ⟨hi, fun hw0 => ⟨hn, fun ho => ?_⟩⟩
    rcases hi.owner with h | h
    · exact hn (ho ▸ h)
    · exact hw0 (ho.symm.trans h)
  have hmem := fun v => BinSearch.mem_of_lookup_true hi.sorted hl (v := v)
  have hsort := hi.sorted.sublist (BinSearch.removeAt_sublist i.writers k)
  have hnw : w ∉ BinSearch.removeAt i.writers k := fun h => ((hmem w).1 h).2 rfl
  dsimp only
  split
  · rename_i he
    simp only [Bool.and_eq_true, beq_iff_eq] at he
    refine ⟨WritersOk.updateOwner hsort he.1 env, fun hw0 => ⟨hnw, fun ho => ?_⟩⟩
    rcases owner_hcUpdateOwner env { i with writers := BinSearch.removeAt i.writers k } with h | h
    · rw [ho] at h
      exact hnw h
    · exact hw0 (ho.symm.trans h)
  rename_i he
  simp only [Bool.and_eq_true, beq_iff_eq, not_and] at he
  have howner : i.owner ≠ w ∨ i.owner = 0 := by
    by_cases hx : cfg.exclusive = true
    · exact .inl fun h => he hx h.symm
    · exact .inr (hi.shared (by simpa using hx))
  refine ⟨⟨hsort, ?_, hi.shared⟩, fun hw0 => ⟨hnw, ?_⟩⟩
  · rcases howner with hne | h0
    · rcases hi.owner with h | h
      · exact .inl ((hmem _).2 ⟨h, hne⟩)
      · exact .inr h
    · exact .inr h0
  · rintro rfl
    rcases howner with hne | h0
    · exact hne rfl
    · exact hw0 h0

theorem addWriter_ok (w : Nat) : WritersOk cfg (addWriter cfg i w).1 := by
  unfold addWriter
  split
  · refine ⟨pairwise_singleton _ _, ?_, fun he => ?_⟩
    · split
      · exact .inl (mem_singleton_self w)
      · exact .inr rfl
    · rw [he]
      rfl
  · rename_i v hv
    split
    · exact hi
    refine ⟨?_, ?_, hi.shared⟩
    · split
      · exact pairwise_pair.2 ‹_›
      · exact pairwise_pair.2 (by omega)
    rcases hi.owner with h | h
    · rw [hv] at h
      rw [mem_singleton.1 h]
      split <;> simp
    · exact .inr h
  · unfold hcLookupHandle
    rcases hl : BinSearch.lookup i.writers w with ⟨k, _ | _⟩
    · refine ⟨BinSearch.pairwise_insertAt hi.sorted hl, ?_, hi.shared⟩
      rcases hi.owner with h | h
      · exact .inl (BinSearch.mem_insertAt.2 (.inr h))
      · exact .inr h
    · exact hi

theorem dropWriter_ok (env : Env) (w : Nat) : WritersOk cfg (dropWriter cfg env i w) := by
  unfold dropWriter
  split
  · exact ⟨List.Pairwise.nil, .inr rfl, fun _ => rfl⟩
  · exact (remWriter_ok hi env w).1

theorem joinWriter_ok (env : Env) (w : Nat) : WritersOk cfg (joinWriter cfg env i w) := by
  have h1 := addWriter_ok hi w
  unfold joinWriter
  dsimp only
  split
  · rename_i he
    simp only [Bool.and_eq_true] at he
    exact WritersOk.updateOwner h1.sorted he.1 env
  · exact h1

theorem updateWriters_ok (env : Env) (c : Change) : WritersOk cfg (updateWriters cfg env i c).1 := by
  rw [updateWriters_fst]
  split
  · exact dropWriter_ok hi env c.writer
  · exact joinWriter_ok hi env c.writer

end

/-! ## Every reachable state -/

def AllWritersOk (cfg : Config) (s : State) : Prop := ∀ i ∈ s.instances, WritersOk cfg i

theorem Tune.writersOk (h : Tune cfg f) (hi : WritersOk cfg i) : WritersOk cfg (f i) := by
  cases h with
  | plain _ _ hw ho => exact hi.congr (hw i) (ho i)
  | sample env c => exact updateWriters_ok hi env c
  | gone env w => exact (remWriter_ok hi env w).1

section
variable (hs : AllWritersOk cfg s)
include hs

namespace AllWritersOk

theorem modify (h : Nat)
    (hf : ∀ i, WritersOk cfg i → WritersOk cfg (f i)) : AllWritersOk cfg (s.modify h f) := by
  intro j hj
  obtain ⟨i, hi, rfl⟩ := mem_modify.1 hj
  split
  · exact hf i (hs i hi)
  · exact hs i hi

theorem shrunk (h : Shrunk s t) : AllWritersOk cfg t := by
  intro j hj
  obtain ⟨i, hi, hk⟩ := h.instances j hj
  exact (hs i hi).congr hk.writers hk.owner

theorem still (h : Still cfg s t) : AllWritersOk cfg t := by
  cases h with
  | calm h => exact hs.shrunk h.shrunk
  | tune h hf => exact hs.modify h fun _ => hf.writersOk
  | uid => exact hs
  | take c hc =>
    unfold hcChangeRemove
    split
    · exact hs.shrunk (shrunk_modify s _ (kept_dropRef c.uid) (dropRef_sublist _ _))
    · exact hs
  | register h b _ _ =>
    intro i hi
    rcases mem_append.1 hi with hi | hi
    · exact hs i hi
    · rw [mem_singleton.1 hi]
      exact ⟨List.Pairwise.nil, .inr rfl, fun _ => rfl⟩

theorem stills (h : Stills cfg s t) : AllWritersOk cfg t := by
  induction h with
  | refl => exact hs
  | tail _ h ih => exact ih.still h

theorem insert (ip : Option Nat) (c : Change) : AllWritersOk cfg (insertChange cfg s ip c) := by
  intro j hj
  obtain ⟨i, hi, rfl⟩ := mem_insertChange.1 hj
  split
  · exact (hs i hi).congr (writers_enter i c.kind) (owner_enter i c.kind)
  · exact hs i hi

theorem grown (h : Grown cfg p s s') : AllWritersOk cfg s' := by
  cases h with
  | still h => exact hs.stills h
  | insert h _ _ h' => exact ((hs.stills h).insert _ _).stills h'

end AllWritersOk

end

theorem AllWritersOk.step (hw : WF cfg s) (hs : AllWritersOk cfg s)
    (h : step cfg fuel s e = some s') : AllWritersOk cfg s' :=
  (step_induction hw hs h fun _ hu hg => hu.grown hg).2

/-! ## A removed writer leaves no trace

After the visit of `hc_rem_writer_removed` the writer is in the list of the instance no more, and an instance that had
no other writer is unregistered, unless `hc_release` took its early exit.
-/

open Option

variable {cfg : Config} {lp : State → List Change} {s s' : State} {fuel w : Nat} {i : Instance} {env : Nat → Env}

/-! ## A reader cache that does not wait for its caller evicts without errors -/

theorem hcRemoveI_ok (hr : cfg.writer = false) (hi : Idle cfg s) (w : Wait) (ip : Option Nat) (c : Change) :
    (hcRemoveI cfg w s ip c false).2 = .ok := by
  have h0 : s.wack c.uid = 0 := (hi.resolve_left (by rw [hr]; decide)).1 c.uid
  unfold hcRemoveI
  split
  · rw [if_neg (fun h => h h0), Bool.and_false]
    rfl
  · rfl

theorem evict_ok (hr : cfg.writer = false) (hi : Idle cfg s) (hip : ip.isSome = cfg.multiInst)
    (h : evict cfg fuel false wait ip lp again s = some (t, r)) : r = .ok := by
  obtain ⟨k, u, hu, hb, -⟩ := DoWhile.doWhile_last (fun x : State × Ret => Idle cfg x.1) (by
    intro k x x' hx hb _
    obtain ⟨c, -, rfl⟩ := map_eq_some_iff.1 hb
    exact (hcRemoveI_calms hx hip _ c false).idle hx) hi h
  obtain ⟨c, -, hc⟩ := map_eq_some_iff.1 hb
  have := hcRemoveI_ok hr hu (wait k) ip c
  rwa [hc] at this

theorem hcAddChange_ok (hr : cfg.writer = false) (hi : Idle cfg s) {env : Env}
    (he : env.rel = false) (hip : ip.isSome = cfg.multiInst)
    (h : hcAddChange cfg fuel env s ip c = some (t, r)) : r = .ok := by
  obtain ⟨⟨s1, r1⟩, h1, h⟩ := bind_eq_some_iff.1 h
  have hok1 : r1 = .ok := by
    unfold evictDepth at h1
    rw [he] at h1
    split at h1
    · exact evict_ok hr hi hip h1
    · cases h1
      rfl
  have hi1 := (evictDepth_calms hi hip h1).idle hi
  rw [if_neg fun hn => hn hok1] at h
  obtain ⟨⟨s2, r2⟩, h2, h⟩ := bind_eq_some_iff.1 h
  have hok2 : r2 = .ok := by
    unfold evictSamples at h2
    rw [he] at h2
    split at h2
    · exact evict_ok hr hi1 hip h2
    · cases h2
      rfl
  rw [if_neg fun hn => hn hok2] at h
  split at h
  · cases h
    rfl
  split at h
  · cases h
  · cases h
    rfl

/-! ## A visit to an instance of the writer alone -/

structure Released (h : Nat) (s0 s : State) : Prop where
  mine : ∀ j ∈ s.instances, j.handle = h → j.writers = [] ∧ j.owner = 0
  others : ∀ j ∈ s.instances, j.handle ≠ h → ∃ i ∈ s0.instances, i.Kept j

theorem Released.shrunk (hs : Released h s0 s) (hst : Shrunk s t) : Released h s0 t := by
  refine ⟨fun k hk hh => ?_, fun k hk hh => ?_⟩
  · obtain ⟨j, hj, hjk⟩ := hst.instances k hk
    rw [hjk.writers, hjk.owner]
    exact hs.mine j hj (hjk.handle.symm.trans hh)
  · obtain ⟨j, hj, hjk⟩ := hst.instances k hk
    obtain ⟨i, hi, hij⟩ := hs.others j hj fun hn => hh (hjk.handle.trans hn)
    exact ⟨i, hi, hij.trans hjk⟩

def Unregistered (h : Nat) (s : State) : Prop := ∀ j ∈ s.instances, j.handle = h → j.kind.unregistered = true

theorem Unregistered.shrunk (hs : Unregistered h s) (hst : Shrunk s t) : Unregistered h t := by
  intro k hk hh
  obtain ⟨j, hj, hjk⟩ := hst.instances k hk
  rw [hjk.kind]
  exact hs j hj (hjk.handle.symm.trans hh)

theorem Released.insert (cfg : Config) {h : Nat} {s0 : State} (hs : Released h s0 s) {c : Change}
    (hk : c.kind.unregistered = true) :
    Released h s0 (insertChange cfg s (some h) c) ∧ Unregistered h (insertChange cfg s (some h) c) := by
  refine ⟨⟨fun j hj hh => ?_, fun j hj hh => ?_⟩, fun j hj hh => ?_⟩
  · obtain ⟨i, hi, rfl⟩ := mem_insertChange.1 hj
    split at hh
    · rw [if_pos ‹_›]
      have := hs.mine i hi ((handle_enter i c.kind).symm.trans hh)
      exact ⟨(writers_enter i c.kind).trans this.1, (owner_enter i c.kind).trans this.2⟩
    · rw [if_neg ‹_›]
      exact hs.mine i hi hh
  · obtain ⟨i, hi, rfl⟩ := mem_insertChange.1 hj
    have hne : some h ≠ some i.handle := by
      intro he
      rw [if_pos he] at hh
      exact hh ((handle_enter i c.kind).trans (Option.some.inj he).symm)
    rw [if_neg hne] at hh ⊢
    exact hs.others i hi hh
  · obtain ⟨i, hi, rfl⟩ := mem_insertChange.1 hj
    split at hh
    · rw [if_pos ‹_›]
      rw [kind_enter]
      exact hk
    · rename_i hne
      exact absurd (congrArg some hh.symm) hne

theorem updateWriters_sole {env : Env} (hs : i.writers = [c.writer]) (hk : c.kind = .notAliveUnregistered) :
    updateWriters cfg env i c = ({ i with writers := [], owner := 0 }, some c) := by
  have hd : dropWriter cfg env i c.writer = { i with writers := [], owner := 0 } := if_pos (.inr hs)
  unfold updateWriters
  rw [hd, hk]
  rfl

theorem mem_modify_cases (hj : j ∈ (s.modify h f).instances) :
    (∃ k ∈ s.instances, k.handle = h ∧ j = f k) ∨ (j ∈ s.instances ∧ j.handle ≠ h) := by
  obtain ⟨k, hk, rfl⟩ := mem_modify.1 hj
  split
  · exact .inl ⟨k, hk, ‹_›, rfl⟩
  · exact .inr ⟨hk, ‹_›⟩

theorem released_modify (hs : s.Handles) (hi : i ∈ s.instances)
    (hf : f i = { i with writers := [], owner := 0 }) : Released i.handle s (s.modify i.handle f) := by
  refine ⟨fun j hj hh => ?_, fun j hj hh => ?_⟩ <;> rcases mem_modify_cases hj with ⟨k, hk, hki, rfl⟩ | ⟨hj, hne⟩
  · rw [eq_of_handle hs hk hi hki, hf]
    exact ⟨rfl, rfl⟩
  · exact absurd hh hne
  · rw [eq_of_handle hs hk hi hki, hf] at hh
    exact absurd rfl hh
  · exact ⟨j, hj, .refl j⟩

theorem Released.orKind (h : Released n s s') (hk : kind = .notAliveUnregistered) :
    Released n s (s'.modify n fun j => { j with kind := j.kind.or kind }) ∧
      Unregistered n (s'.modify n fun j => { j with kind := j.kind.or kind }) := by
  refine ⟨⟨fun j hj hh => ?_, fun j hj hh => ?_⟩, fun j hj hh => ?_⟩ <;>
    rcases mem_modify_cases hj with ⟨k, hk', hki, rfl⟩ | ⟨hj, hne⟩
  · exact h.mine k hk' hki
  · exact h.mine j hj hh
  · exact absurd hki hh
  · exact h.others j hj hh
  · rw [hk]
    exact Bool.or_true _
  · exact absurd hh hne

theorem hcAdd_releases (hw : WF cfg s) (hr : cfg.writer = false) (hm : cfg.multiInst = true)
    {env : Env} (he : env.rel = false) (hi : i ∈ s.instances)
    (hs : i.writers = [c.writer]) (hk : c.kind = .notAliveUnregistered)
    (h : hcAdd cfg fuel env s i c = some (s', r)) : Released i.handle s s' ∧ Unregistered i.handle s' := by
  unfold hcAdd at h
  dsimp only at h
  rw [hr, if_neg Bool.false_ne_true, updateWriters_sole hs hk] at h
  dsimp only at h
  have hrel := released_modify hw.handles hi (f := fun j => (updateWriters cfg env j c).1)
    (by rw [updateWriters_sole hs hk])
  have hw1 := hw.modify i.handle fun j => updateWriters_lists cfg env j c
  split at h
  · -- The instance was not alive: its state takes the new bit.
    have h2 := hrel.orKind hk
    cases h
    split
    · have hf (t : State) : Calm cfg t _ := .free i.handle
      exact ⟨h2.1.shrunk (hf _).shrunk, h2.2.shrunk (hf _).shrunk⟩
    · exact h2
  · have hip : (some i.handle).isSome = cfg.multiInst := by rw [hm]; rfl
    have hok := hcAddChange_ok hr hw1.idle he hip h
    cases hcAddChange_added hw1.handles hw1.idle hip h with
    | rejected _ hne => exact absurd hok hne
    | @inserted u c' hc _ hst _ hc' =>
      obtain ⟨h1, h2⟩ := (hrel.shrunk hc.shrunk).insert cfg (c := c') (by rw [hst.kind, hk]; rfl)
      exact ⟨h1.shrunk hc'.shrunk, h2.shrunk hc'.shrunk⟩

theorem hcRelease_releases (hw : WF cfg s) (hr : cfg.writer = false)
    (hm : cfg.multiInst = true) (hheard : cfg.durability = true ∨ cfg.deadline = true) {env : Env}
    (hi : s.inst? h = some i) (hs : i.writers = [w])
    (ha : hcRelease cfg fuel env s h .notAliveUnregistered w t = some (s', r)) :
    Released h s s' ∧ Unregistered h s' := by
  unfold hcRelease at ha
  split at ha
  · rename_i hearly
    simp only [Bool.and_eq_true, Bool.not_eq_true'] at hearly
    rcases hheard with hd | hd
    · rw [hearly.1.1.1] at hd
      cases hd
    · rw [hearly.2] at hd
      cases hd
  · unfold hcAddInst at ha
    obtain ⟨hmem, rfl⟩ := inst?_mem hi
    have hi1 : ({ s with nextUid := s.nextUid + 1 } : State).inst? i.handle = some i := hi
    rw [if_pos hm, hi1] at ha
    obtain ⟨h1, h2⟩ := hcAdd_releases (hw.still .uid) hr hm rfl hmem hs rfl ha
    exact ⟨⟨h1.mine, h1.others⟩, h2⟩

/-! ## The walk -/

structure Visit (w h : Nat) (s s' : State) : Prop where
  gone : ∀ j ∈ s'.instances, j.handle = h → Gone w j
  others : ∀ j ∈ s'.instances, j.handle ≠ h → ∃ i ∈ s.instances, i.Kept j
  old : ∀ j ∈ s'.instances, ∃ i ∈ s.instances, i.handle = j.handle
  sole : ∀ i ∈ s.instances, i.handle = h → i.writers = [w] → Unregistered h s'

def Heard (cfg : Config) (w : Nat) (i : Instance) : Prop :=
  cfg.durability = true ∨ cfg.deadline = true ∨ i.writers ≠ [w]

theorem instRemWriter_visit (hw : WF cfg s) (ha : AllWritersOk cfg s) (hr : cfg.writer = false)
    (hm : cfg.multiInst = true) (hw0 : w ≠ 0) (hheard : ∀ i ∈ s.instances, i.handle = h → Heard cfg w i)
    (hv : instRemWriter cfg fuel env w t s h = some s') : Visit w h s s' := by
  unfold instRemWriter at hv
  cases hi : s.inst? h with
  | none =>
    rw [hi] at hv
    cases hv
    have hnone : ∀ i ∈ s.instances, i.handle ≠ h := fun i hi' => by simpa using find?_eq_none.1 hi i hi'
    exact ⟨fun j hj hh => absurd hh (hnone j hj), fun j hj _ => ⟨j, hj, .refl j⟩, fun j hj => ⟨j, hj, rfl⟩,
      fun i hi hh => absurd hh (hnone i hi)⟩
  | some i =>
    rw [hi] at hv
    dsimp only at hv
    obtain ⟨hmem, rfl⟩ := inst?_mem hi
    have huniq : ∀ j ∈ s.instances, j.handle = i.handle → j = i := fun j hj hh => eq_of_handle hw.handles hj hmem hh
    split at hv
    · rename_i hnil
      cases hv
      refine ⟨fun j hj hh => ?_, fun j hj _ => ⟨j, hj, .refl j⟩, fun j hj => ⟨j, hj, rfl⟩, fun j hj hh hsole => ?_⟩
      · rw [huniq j hj hh]
        refine ⟨by rw [hnil]; exact not_mem_nil, fun ho => ?_⟩
        rcases (ha i hmem).owner with h | h
        · rw [hnil] at h
          cases h
        · exact hw0 (ho.symm.trans h)
      · rw [huniq j hj hh, hnil] at hsole
        cases hsole
    split at hv
    · rename_i hsole
      obtain ⟨⟨u, r⟩, hrel, rfl⟩ := map_eq_some_iff.1 hv
      have hhd : cfg.durability = true ∨ cfg.deadline = true := by
        rcases hheard i hmem rfl with h | h | h
        · exact .inl h
        · exact .inr h
        · exact absurd hsole h
      obtain ⟨hR, hU⟩ := hcRelease_releases hw hr hm hhd hi hsole hrel
      refine ⟨fun j hj hh => ?_, hR.others, fun j hj => ?_, fun _ _ _ _ => hU⟩
      · obtain ⟨hws, ho⟩ := hR.mine j hj hh
        exact ⟨by rw [hws]; exact not_mem_nil, by rw [ho]; exact hw0.symm⟩
      by_cases hh : j.handle = i.handle
      · exact ⟨i, hmem, hh.symm⟩
      · obtain ⟨k, hk, hkj⟩ := hR.others j hj hh
        exact ⟨k, hk, hkj.handle.symm⟩
    rename_i hns
    cases hv
    have hh := fun j => (remWriter_lists cfg (env i.handle) j w).1
    refine ⟨fun j hj hjh => ?_, fun j hj hjh => ?_, fun j hj => ?_, fun j hj hjh hsole => ?_⟩
    · rcases mem_modify_cases hj with ⟨k, hk, -, rfl⟩ | ⟨hj, hne⟩
      · exact (remWriter_ok (ha k hk) (env i.handle) w).2 hw0
      · exact absurd hjh hne
    · rcases mem_modify_cases hj with ⟨k, hk, he, rfl⟩ | ⟨hj, -⟩
      · exact absurd ((hh k).trans he) hjh
      · exact ⟨j, hj, .refl j⟩
    · obtain ⟨k, hk, rfl⟩ := mem_modify.1 hj
      refine ⟨k, hk, ?_⟩
      split
      · exact (hh k).symm
      · rfl
    · rw [huniq j hj hjh] at hsole
      exact absurd hsole hns

theorem Gone.kept (h : Gone w i) (hk : i.Kept j) : Gone w j := by
  unfold Gone
  rw [hk.writers, hk.owner]
  exact h

structure Walked (w : Nat) (hs : List Nat) (s s' : State) : Prop where
  gone : ∀ j ∈ s'.instances, j.handle ∈ hs → Gone w j
  others : ∀ j ∈ s'.instances, j.handle ∉ hs → ∃ i ∈ s.instances, i.Kept j
  old : ∀ j ∈ s'.instances, ∃ i ∈ s.instances, i.handle = j.handle
  sole : ∀ i ∈ s.instances, i.handle ∈ hs → i.writers = [w] → Unregistered i.handle s'

theorem Walked.cons {n : Nat} {ns : List Nat} {s1 : State} (hs : s.Handles) (hn : n ∉ ns) (hv : Visit w n s s1)
    (hw : Walked w ns s1 s') : Walked w (n :: ns) s s' := by
  refine ⟨fun j hj hh => ?_, fun j hj hh => ?_, fun j hj => ?_, fun i hi hh hsole j hj hji => ?_⟩
  · rcases mem_cons.1 hh with he | hm
    · obtain ⟨i, hi, hij⟩ := hw.others j hj (he ▸ hn)
      exact (hv.gone i hi (hij.handle.symm.trans he)).kept hij
    · exact hw.gone j hj hm
  · rw [mem_cons, not_or] at hh
    obtain ⟨i, hi, hij⟩ := hw.others j hj hh.2
    obtain ⟨k, hk, hki⟩ := hv.others i hi fun he => hh.1 (hij.handle.trans he)
    exact ⟨k, hk, hki.trans hij⟩
  · obtain ⟨i, hi, hij⟩ := hw.old j hj
    obtain ⟨k, hk, hki⟩ := hv.old i hi
    exact ⟨k, hk, hki.trans hij⟩
  rcases mem_cons.1 hh with he | hm
  · obtain ⟨k, hk, hkj⟩ := hw.others j hj (by rw [hji, he]; exact hn)
    rw [hkj.kind]
    exact hv.sole i hi he hsole k hk (by rw [← hkj.handle, hji, he])
  -- The instance was still as before when its turn came.
  obtain ⟨k, hk, hkj⟩ := hw.old j hj
  have hkn : k.handle ≠ n := by
    rw [hkj, hji]
    exact fun he => hn (he ▸ hm)
  obtain ⟨l, hl, hlk⟩ := hv.others k hk hkn
  have hki : k.handle = i.handle := hkj.trans hji
  have hli : l = i := eq_of_handle hs hl hi (hlk.handle.symm.trans hki)
  exact hw.sole k hk (by rw [hki]; exact hm) (by rw [hlk.writers, hli]; exact hsole) j hj hkj.symm

theorem walk_departs (hr : cfg.writer = false)
    (hm : cfg.multiInst = true) (hw0 : w ≠ 0) : ∀ {hs : List Nat} {s s' : State}, WF cfg s → AllWritersOk cfg s →
      hs.Nodup → (∀ i ∈ s.instances, i.handle ∈ hs → Heard cfg w i) →
      hs.foldlM (fun s h => instRemWriter cfg fuel env w t s h) s = some s' → Walked w hs s s'
  | [], s, s', _, _, _, _, h => by
    cases h
    exact ⟨nofun, fun j hj _ => ⟨j, hj, .refl j⟩, fun j hj => ⟨j, hj, rfl⟩,
      nofun⟩
  | n :: ns, s, s', hw, ha, hnd, hheard, h => by
    obtain ⟨s1, h1, h⟩ := bind_eq_some_iff.1 (foldlM_cons.symm.trans h)
    obtain ⟨hn, hnd⟩ := nodup_cons.1 hnd
    have hg := instRemWriter_grown hw h1
    have hv := instRemWriter_visit hw ha hr hm hw0
      (fun i hi hh => hheard i hi (hh ▸ mem_cons_self)) h1
    refine Walked.cons hw.handles hn hv (walk_departs hr hm hw0 (hw.grown hg) (ha.grown hg) hnd ?_ h)
    intro i hi hh
    obtain ⟨k, hk, hki⟩ := hv.others i hi fun he => hn (he ▸ hh)
    have := hheard k hk (by rw [← hki.handle]; exact mem_cons_of_mem _ hh)
    unfold Heard at this ⊢
    rwa [hki.writers]

/-! ## A release that is not heard -/

theorem instRemWriter_stays (hw : WF cfg s) (hr : cfg.writer = false) (hdu : cfg.durability = false)
    (hde : cfg.deadline = false)
    (hi : i ∈ s.instances) (hsole : i.writers = [w]) (hv : instRemWriter cfg fuel env w t s h = some s') :
    i ∈ s'.instances := by
  obtain ⟨-, hmon, hrd⟩ := hw.idle.resolve_left (by rw [hr]; decide)
  unfold instRemWriter at hv
  split at hv
  · cases hv
    exact hi
  rename_i k hk
  split at hv
  · cases hv
    exact hi
  split at hv
  · unfold hcRelease at hv
    rw [hdu, hde, hmon, hrd] at hv
    cases hv
    exact hi
  · rename_i hns
    cases hv
    refine mem_modify.2 ⟨i, hi, if_neg fun hh => hns ?_⟩
    rw [← eq_of_handle hw.handles hi (inst?_mem hk).1 (hh.trans (inst?_mem hk).2.symm)]
    exact hsole

theorem walk_stays (hr : cfg.writer = false)
    (hdu : cfg.durability = false) (hde : cfg.deadline = false) (hsole : i.writers = [w]) :
    ∀ {hs : List Nat} {s s' : State}, WF cfg s → i ∈ s.instances →
      hs.foldlM (fun s h => instRemWriter cfg fuel env w t s h) s = some s' → i ∈ s'.instances
  | [], s, s', _, hi, h => by
    cases h
    exact hi
  | n :: ns, s, s', hw, hi, h => by
    obtain ⟨s1, h1, h⟩ := bind_eq_some_iff.1 (foldlM_cons.symm.trans h)
    exact walk_stays hr hdu hde hsole (hw.grown (instRemWriter_grown hw h1))
      (instRemWriter_stays hw hr hdu hde hi hsole h1) h

/-! ## The walk ends -/

theorem Grown.length_le (h : Grown cfg p s s') : s'.changes.length ≤ s.changes.length + 1 := by
  cases h with
  | still h => exact Nat.le_succ_of_le h.fewer.changes.length_le
  | @insert u ip c h _ _ h' =>
    have h1 := h'.fewer.changes.length_le
    rw [insertChange_changes, (ccrefAdd_perm cfg.srcTime u.changes c).length_eq] at h1
    exact Nat.le_trans h1 (Nat.succ_le_succ h.fewer.changes.length_le)

theorem instRemWriter_ends (hd : 1 ≤ cfg.maxDepth) (hms : 1 ≤ cfg.maxSamples) (hw : WF cfg s)
    (hf : s.changes.length < fuel) (hroom : cfg.refType = true → s.changes.length < cfg.maxSamples)
    (env : Nat → Env) (w : Nat) (t : Int) (h : Nat) : ∃ s', instRemWriter cfg fuel env w t s h = some s' := by
  have hrel : ∃ x, hcRelease cfg fuel (env h) s h .notAliveUnregistered w t = some x := by
    unfold hcRelease
    split
    · exact ⟨_, rfl⟩
    have hs : samplesFull cfg s .notAliveUnregistered = false := by
      unfold samplesFull
      cases hrt : cfg.refType with
      | false => rfl
      | true =>
        have := hroom hrt
        have hk : Kind.notAliveUnregistered ≠ .alive := by decide
        simp [hk]
        omega
    obtain ⟨s', r, ha⟩ := hcAddInst_ends hd hms hw hf { env h with rel := false } h
      (d := ⟨.notAliveUnregistered, w, t, 0, false⟩) (.inr (.inl hs))
    exact ⟨(s', r), ha⟩
  obtain ⟨x, hx⟩ := hrel
  unfold instRemWriter
  rw [hx]
  split
  · exact ⟨_, rfl⟩
  split
  · exact ⟨_, rfl⟩
  · split <;> exact ⟨_, rfl⟩

theorem walk_ends (hd : 1 ≤ cfg.maxDepth) (hms : 1 ≤ cfg.maxSamples) (fuel : Nat) (env : Nat → Env) (w : Nat)
    (t : Int) : ∀ (hs : List Nat) {s : State}, WF cfg s → s.changes.length + hs.length < fuel →
      (cfg.refType = true → s.changes.length + hs.length ≤ cfg.maxSamples) →
      ∃ s', hs.foldlM (fun s h => instRemWriter cfg fuel env w t s h) s = some s'
  | [], s, _, _, _ => ⟨s, rfl⟩
  | n :: ns, s, hw, hf, hroom => by
    rw [length_cons] at hf
    obtain ⟨s1, h1⟩ := instRemWriter_ends hd hms hw (show s.changes.length < fuel by omega) (fun h => by
      have := hroom h
      rw [length_cons] at this
      omega) env w t n
    have hg := instRemWriter_grown hw h1
    have hlen := hg.length_le
    obtain ⟨s', h'⟩ := walk_ends hd hms fuel env w t ns (hw.grown hg) (by omega) (fun h => by
      have := hroom h
      rw [length_cons] at this
      omega)
    exact ⟨s', foldlM_cons.trans (bind_eq_some_iff.2 ⟨s1, h1, h'⟩)⟩

/-! ## Runs -/

/-- **Writer `w` has left no trace**: it is in no list of writers and owns nothing, and what it had for itself is
unregistered or gone. -/
def Departed (w : Nat) (s s' : State) : Prop :=
  (∀ j ∈ s'.instances, w ∉ j.writers ∧ j.owner ≠ w) ∧
    ∀ i ∈ s.instances, i.writers = [w] → ∀ j ∈ s'.instances, j.handle = i.handle → j.kind.unregistered = true

theorem departed_of_walk (hw : WF cfg s)
    (ha : AllWritersOk cfg s) (hr : cfg.writer = false) (hm : cfg.multiInst = true) (hw0 : w ≠ 0)
    (h : hcRemWriterRemoved cfg fuel env w t s = some s') :
    Departed w s s' ↔ ∀ i ∈ s.instances, Heard cfg w i := by
  have hfold : (s.instances.map fun i => i.handle).foldlM (fun s h => instRemWriter cfg fuel env w t s h) s =
    some s' := by
    unfold hcRemWriterRemoved at h
    rwa [hm] at h
  constructor
  · intro hdep i hi
    by_contra hn
    unfold Heard at hn
    rw [not_or, not_or, not_not] at hn
    obtain ⟨hdu, hde, hsole⟩ := hn
    have hmem := walk_stays hr (by simpa using hdu) (by simpa using hde) hsole hw hi hfold
    apply (hdep.1 i hmem).1
    rw [hsole]
    exact mem_singleton_self w
  · intro hheard
    have hwalk := walk_departs hr hm hw0 hw ha hw.handles (fun i hi _ => hheard i hi) hfold
    have hin : ∀ i ∈ s.instances, i.handle ∈ s.instances.map fun i => i.handle := fun i hi => mem_map.2 ⟨i, hi, rfl⟩
    refine ⟨fun j hj => ?_, fun i hi hsole => hwalk.sole i hi (hin i hi) hsole⟩
    obtain ⟨i, hi, hij⟩ := hwalk.old j hj
    exact hwalk.gone j hj (hij ▸ hin i hi)

theorem allWritersOk_of_run (h : Run (step cfg fuel) ok State.init es s) : AllWritersOk cfg s :=
  (holds_of_run nofun (fun hw hs _ hstep => hs.step hw hstep) h).2

/-- **A removed writer leaves no trace in a keyed reader cache exactly if no instance is its own, or the cache is
durable or has a deadline**; and the removal ends, if there is room for a change of every instance. -/
theorem departed_iff (q : Qos) (hh : qtHistoryValid q = true) (hl : qtResourceLimitsValid q = true)
    (builtin refType : Bool) (fuel : Nat) {es : List Event} {s : State}
    (hrun : Run (step (hcNew q false builtin true refType) fuel) (fun _ _ => True) State.init es s) {w : Nat}
    (hw0 : w ≠ 0) (t : Int) (env : Nat → Env) :
    (∀ n s', hcRemWriterRemoved (hcNew q false builtin true refType) n env w t s = some s' →
      (Departed w s s' ↔ q.durability = true ∨ q.deadline = true ∨ ∀ i ∈ s.instances, i.writers ≠ [w])) ∧
    ((refType = true → s.changes.length + s.instances.length ≤ limit q.maxSamples) →
      ∃ n s', hcRemWriterRemoved (hcNew q false builtin true refType) n env w t s = some s') := by
  have hw := wf_of_run hrun
  obtain ⟨hd, hms⟩ := one_le_limits hh hl false builtin true refType
  constructor
  · intro n s' h
    rw [departed_of_walk hw (allWritersOk_of_run hrun) rfl rfl hw0 h]
    constructor
    · intro hheard
      by_cases hdu : q.durability = true
      · exact .inl hdu
      · by_cases hde : q.deadline = true
        · exact .inr (.inl hde)
        · exact .inr (.inr fun i hi => ((hheard i hi).resolve_left hdu).resolve_left hde)
    · rintro (h | h | h) i hi
      · exact .inl h
      · exact .inr (.inl h)
      · exact .inr (.inr (h i hi))
  · intro hroom
    obtain ⟨s', hs'⟩ := walk_ends hd hms _ env w t (s.instances.map fun i => i.handle) hw (Nat.lt_succ_self _) (by
      rw [length_map]
      exact hroom)
    exact ⟨_, s', hs'⟩

def volatileReader : Qos := { Qos.keepLast with depth := 5, instOrder := true, exclusive := true }

def sampleOf (w : Nat) : Sample := ⟨.alive, w, 5, 4, true⟩

theorem departed_one_of_two :
    ∃ s', hcRemWriterRemoved (hcNew volatileReader false false true false) 1 (fun _ => calmEnv) 2 9
      ((exec (step (hcNew volatileReader false false true false) 1) (fun _ _ => True) State.init
        [.register 1 false, .add 1 (sampleOf 1) calmEnv, .add 1 (sampleOf 2) calmEnv]).get (by decide)) = some s' ∧
      Departed 2 ((exec (step (hcNew volatileReader false false true false) 1) (fun _ _ => True) State.init
        [.register 1 false, .add 1 (sampleOf 1) calmEnv, .add 1 (sampleOf 2) calmEnv]).get (by decide)) s' :=
  have h := departed_iff volatileReader (by decide) (by decide) false false 1
    (Run.of_isSome :
      Run _ _ _ [.register 1 false, .add 1 (sampleOf 1) calmEnv, .add 1 (sampleOf 2) calmEnv] _)
    (show 2 ≠ 0 by decide) 9 (fun _ => calmEnv)
  ⟨_, rfl, (h.1 1 _ rfl).2 (.inr (.inr (by decide)))⟩

/-- The only writer of an instance of a volatile reader stays its writer and its owner. -/
theorem not_departed : qtHistoryValid volatileReader = true ∧ qtResourceLimitsValid volatileReader = true ∧
    ∃ es s s', Run (step (hcNew volatileReader false false true false) 1) (fun _ _ => True) State.init es s ∧
      hcRemWriterRemoved (hcNew volatileReader false false true false) 1 (fun _ => calmEnv) 1 9 s = some s' ∧
      ∃ j ∈ s'.instances, j.writers = [1] ∧ j.owner = 1 ∧ j.kind = .alive := by
  have hrun : Run (step (hcNew volatileReader false false true false) 1) (fun _ _ => True) State.init
    [.register 1 false, .add 1 (sampleOf 1) calmEnv] _ := Run.of_isSome
  exact ⟨by decide, by decide, _, _, _, hrun, rfl, by decide⟩

end Qeo.Cache
