import QeoCore.CacheDepart
/-!
# CacheOwner — exclusive ownership (`hc_update_owner`)

The owner of an instance is chosen when a writer comes or the owner leaves, and stays the owner when strengths change.
The strengths and the GUIDs of the writers are the world that a cache runs in, and change between its events.
-/
namespace Qeo.Cache

open List Trace

/-- `cmp_writer_guid`, with the GUIDs as numbers: the prefix, then the 32 bits of the entity id, of which the difference
is taken for an `int`.  A writer that is gone has none. -/
def cmpWriterGuid : Option Nat → Option Nat → Int
  | some g, some g' =>
    if g / 2 ^ 32 = g' / 2 ^ 32 then ((g : Int) - g').bmod (2 ^ 32) else if g / 2 ^ 32 < g' / 2 ^ 32 then -1 else 1
  | _, _ => -1

structure World where
  strength : Nat → Nat
  guid : Nat → Option Nat

def World.env (world : World) (env : Env) : Env :=
  { env with
    strength := world.strength
    guidGt := fun v w => decide (0 < cmpWriterGuid (world.guid v) (world.guid w)) }

section
variable (world : World)

/-- Writers of the same strength have different GUIDs, and within a participant no entity id is 2^31 above another. -/
def Comparable (ws : List Nat) : Prop :=
  ∀ v ∈ ws, ∀ w ∈ ws, v = w ∨ (world.strength v = world.strength w →
    ∃ g ∈ world.guid v, ∃ g' ∈ world.guid w, g ≠ g' ∧ (g / 2 ^ 32 = g' / 2 ^ 32 → g < g' + 2 ^ 31 ∧ g' < g + 2 ^ 31))

def Beats (w v : Nat) : Prop :=
  world.strength v < world.strength w ∨
    world.strength v = world.strength w ∧ ∃ g ∈ world.guid w, ∃ g' ∈ world.guid v, g < g'

/-- Whichever order the writers are in. -/
def Best (ws : List Nat) (w : Nat) : Prop :=
  w ∈ ws ∧ ∀ v ∈ ws, v = w ∨ Beats world w v

instance : DecidablePred (Comparable world) := fun ws => by
  unfold Comparable
  infer_instance

instance (w v : Nat) : Decidable (Beats world w v) := inferInstanceAs (Decidable (_ ∨ _))

instance (ws : List Nat) (w : Nat) : Decidable (Best world ws w) := inferInstanceAs (Decidable (_ ∧ _))

end

variable {world : World} {cfg : Config} {i : Instance} {c : Change}

theorem Comparable.subset (h : Comparable world ws) (hsub : ∀ v ∈ ws', v ∈ ws) : Comparable world ws' :=
  fun v hv w hw => h v (hsub v hv) w (hsub w hw)

theorem Beats.asymm (h : Beats world v w) : ¬ Beats world w v := by
  rintro (h' | ⟨hs', g, hg, g', hg', hlt'⟩)
  · rcases h with h | ⟨hs, _⟩ <;> omega
  rcases h with h | ⟨_, g1, hg1, g2, hg2, hlt⟩
  · omega
  obtain rfl := Option.mem_unique hg hg2
  obtain rfl := Option.mem_unique hg' hg1
  omega

theorem Best.unique (h : Best world ws v) (h' : Best world ws w) : v = w :=
  (h'.2 v h.1).elim id fun hb => (h.2 w h'.1).elim Eq.symm fun hb' => absurd hb hb'.asymm

theorem Best.subset (h : Best world ws w) (hw : w ∈ ws') (hsub : ∀ v ∈ ws', v ∈ ws) : Best world ws' w :=
  ⟨hw, fun v hv => h.2 v (hsub v hv)⟩

theorem Beats.trans (h : Beats world u v) (h' : Beats world v w) : Beats world u w := by
  rcases h with h | ⟨hs, g1, hg1, g2, hg2, hlt⟩
  · rcases h' with h' | ⟨hs', _⟩
    · exact .inl (h'.trans h)
    · exact .inl (hs' ▸ h)
  rcases h' with h' | ⟨hs', g2', hg2', g3, hg3, hlt'⟩
  · exact .inl (hs ▸ h')
  · obtain rfl : g2 = g2' := Option.mem_unique hg2 hg2'
    exact .inr ⟨hs'.trans hs, g1, hg1, g3, hg3, hlt.trans hlt'⟩

theorem Best.cons_beaten (h : Best world (w :: ws) u) (hb : Beats world w v) :
    Best world (v :: w :: ws) u := by
  refine ⟨mem_cons_of_mem v h.1, forall_mem_cons.2 ⟨?_, h.2⟩⟩
  rcases h.2 w mem_cons_self with rfl | hu
  · exact .inr hb
  · exact .inr (hu.trans hb)

theorem Best.insert_beaten (h : Best world (v :: ws) u) (hb : Beats world v w) :
    Best world (v :: w :: ws) u := by
  obtain ⟨hv, hws⟩ := forall_mem_cons.1 h.2
  refine ⟨?_, forall_mem_cons.2 ⟨hv, forall_mem_cons.2 ⟨?_, hws⟩⟩⟩
  · exact (mem_cons.1 h.1).elim (fun hu => hu ▸ mem_cons_self) fun hu => mem_cons_of_mem v (mem_cons_of_mem w hu)
  · rcases hv with rfl | hu
    · exact .inr hb
    · exact .inr (hu.trans hb)

theorem cmpWriterGuid_pos (hclose : g / 2 ^ 32 = g' / 2 ^ 32 → g < g' + 2 ^ 31 ∧ g' < g + 2 ^ 31) :
    0 < cmpWriterGuid (some g) (some g') ↔ g' < g := by
  rw [cmpWriterGuid]
  split
  · rename_i hpart
    have := hclose hpart
    rw [Int.bmod_def]
    split <;> omega
  · split <;> omega

/-- **The loop finds the best writer.** -/
theorem strongest_best (env : Env) : ∀ (ws : List Nat) {v : Nat}, (v :: ws).Nodup → v ≠ 0 →
    Comparable world (v :: ws) → (∀ w ∈ ws, w ≠ 0) →
    Best world (v :: ws) (strongest (world.env env) (v, world.strength v) ws)
  | [], v, _, _, _, _ => ⟨mem_singleton_self v, fun u hu => .inl (mem_singleton.1 hu)⟩
  | w :: ws, v, hnd, hv, hc, h0 => by
    obtain ⟨hw0, hws0⟩ := forall_mem_cons.1 h0
    have hsub : ∀ x ∈ w :: ws, x ∈ v :: w :: ws := fun x hx => mem_cons_of_mem v hx
    have hvw : ∀ x ∈ v :: ws, x ∈ v :: w :: ws := by grind
    have ihw := strongest_best env ws (nodup_cons.1 hnd).2 hw0 (hc.subset hsub) hws0
    have ihv := strongest_best env ws (hnd.sublist (.cons_cons v (sublist_cons_self w ws))) hv
      (hc.subset hvw) hws0
    unfold strongest
    split
    · rename_i hlt
      exact ihw.cons_beaten (.inl (hlt.resolve_left hv))
    rename_i hge
    have hle : world.strength w ≤ world.strength v := not_lt.1 fun h => hge (.inr h)
    have hcmp : world.strength w = world.strength v → ∃ g ∈ world.guid v, ∃ g' ∈ world.guid w, g ≠ g' ∧
        ((world.env env).guidGt v w = true ↔ g' < g) := by
      intro hs
      have hvw : v ≠ w := fun h => (nodup_cons.1 hnd).1 (h ▸ mem_cons_self)
      obtain ⟨g, hg, g', hg', hne, hclose⟩ := (hc v mem_cons_self w (hsub w mem_cons_self)).resolve_left hvw hs.symm
      refine ⟨g, hg, g', hg', hne, ?_⟩
      rw [← cmpWriterGuid_pos hclose, ← Option.mem_def.1 hg, ← Option.mem_def.1 hg']
      exact decide_eq_true_iff
    split
    · rename_i heq
      obtain ⟨g, hg, g', hg', _, hgt⟩ := hcmp heq.1
      have hs : world.strength v = world.strength w := heq.1.symm
      rw [hs]
      exact ihw.cons_beaten (.inr ⟨hs, g', hg', g, hg, hgt.1 heq.2⟩)
    rename_i hneq
    refine ihv.insert_beaten ?_
    rcases hle.lt_or_eq with hlt | hs
    · exact .inl hlt
    obtain ⟨g, hg, g', hg', hne, hgt⟩ := hcmp hs
    refine .inr ⟨hs, g, hg, g', hg', ?_⟩
    have : ¬ g' < g := fun h => hneq ⟨hs, hgt.2 h⟩
    omega

theorem addWriter_cases (hi : WritersOk cfg i) (w : Nat) :
    w ∈ i.writers ∧ addWriter cfg i w = (i, false) ∨
    i.writers = [] ∧ addWriter cfg i w = ({ i with writers := [w], owner := if cfg.exclusive then w else 0 }, false) ∨
    w ∉ i.writers ∧ ∃ ws, addWriter cfg i w = ({ i with writers := ws }, true) ∧ ∀ v, v ∈ ws ↔ v = w ∨
    v ∈ i.writers := by
  unfold addWriter
  split
  · rename_i hnil
    exact .inr (.inl ⟨hnil, rfl⟩)
  · rename_i v hv
    rw [hv]
    split
    · rename_i h
      exact .inl ⟨h ▸ mem_singleton_self v, rfl⟩
    · rename_i h
      refine .inr (.inr ⟨fun hm => h (mem_singleton.1 hm).symm, _, rfl, fun u => ?_⟩)
      split <;> simp [or_comm]
  · unfold hcLookupHandle
    rcases hl : BinSearch.lookup i.writers w with ⟨k, _ | _⟩
    · exact .inr (.inr ⟨BinSearch.not_mem_of_lookup_false hi.sorted hl, _, rfl, fun v => BinSearch.mem_insertAt⟩)
    · obtain ⟨as, bs, hw, _⟩ := BinSearch.lookup_true hi.sorted hl
      exact .inl ⟨by simp [hw], rfl⟩

theorem owner_best (env : Env) (i : Instance) (hsorted : i.writers.Pairwise (· < ·)) (hne : i.writers ≠ [])
    (h0 : 0 ∉ i.writers) (hc : Comparable world i.writers) :
    Best world i.writers (hcUpdateOwner (world.env env) i).owner := by
  obtain ⟨v, ws, hws⟩ := exists_cons_of_ne_nil hne
  rw [hws] at hc h0 hsorted ⊢
  have hv0 : v ≠ 0 := fun h => h0 (h ▸ mem_cons_self)
  show Best _ _ (strongest _ (0, 0) i.writers)
  rw [hws, strongest, if_pos (.inl rfl)]
  exact strongest_best env ws hsorted.nodup hv0 hc fun w hw h => h0 (h ▸ mem_cons_of_mem v hw)

theorem alive_of_updateWriters (h : (updateWriters cfg env i c).2 = some c1) (hk : c1.kind = .alive) :
    c.kind = .alive := by
  unfold updateWriters at h
  dsimp only at h
  split at h
  · rename_i hun
    exfalso
    split at h
    · cases h
      rw [hk] at hun
      cases hun
    split at h
    · cases h
    rename_i hne
    split at h
    · cases h
    · cases h
      have hd : c.kind.disposed = false := congrArg Kind.disposed hk
      exact hne (by rw [Kind.notAliveUnregistered, ← hd, ← hun])
  · split at h
    · cases h
    · cases h
      exact hk

theorem owner_of_updateWriters (he : cfg.exclusive = true) (hk : c.kind = .alive)
    (h : (updateWriters cfg env i c).2 = some c1) : (updateWriters cfg env i c).1 = joinWriter cfg env i c.writer ∧
      ((joinWriter cfg env i c.writer).owner = 0 ∨ (joinWriter cfg env i c.writer).owner = c.writer) := by
  have hun : c.kind.unregistered = false := by rw [hk]; rfl
  unfold updateWriters at h ⊢
  rw [hun] at h ⊢
  simp only [Bool.false_eq_true, if_false] at h ⊢
  split at h
  · cases h
  · rename_i hn
    rw [if_neg hn]
    simp only [he, Bool.true_and, Bool.and_eq_true, bne_iff_ne, not_and, not_not] at hn
    exact ⟨rfl, or_iff_not_imp_left.2 fun ho => (hn ho).symm⟩

theorem mem_joinWriter (hi : WritersOk cfg i) (env : Env) (w : Nat) : w ∈ (joinWriter cfg env i w).writers := by
  have hj : (joinWriter cfg env i w).writers = (addWriter cfg i w).1.writers := by
    unfold joinWriter
    dsimp only
    split <;> rfl
  rw [hj]
  rcases addWriter_cases hi w with ⟨hw, ha⟩ | ⟨_, ha⟩ | ⟨_, ws, ha, hws⟩ <;> rw [ha]
  · exact hw
  · exact mem_singleton_self w
  · exact (hws w).2 (.inl rfl)

/-! ## The owner is the best -/

/-- An instance with a sorted list of writers of which the owner is the best. -/
structure Owned (cfg : Config) (world : World) (i : Instance) : Prop extends WritersOk cfg i where
  nonzero : 0 ∉ i.writers
  comparable : Comparable world i.writers
  best : i.writers ≠ [] → Best world i.writers i.owner

theorem Owned.congr (h : Owned cfg world i) (hw : j.writers = i.writers) (ho : j.owner = i.owner) :
    Owned cfg world j :=
  ⟨h.toWritersOk.congr hw ho, hw ▸ h.nonzero, hw ▸ h.comparable, hw ▸ ho ▸ h.best⟩

theorem Owned.empty (hw : i.writers = []) (ho : i.owner = 0) : Owned cfg world i := by
  refine ⟨⟨?_, .inr ho, fun _ => ho⟩, ?_, ?_, fun hne => absurd hw hne⟩
  · rw [hw]
    exact .nil
  · rw [hw]
    exact not_mem_nil
  · rw [hw]
    exact nofun

section
variable (h : Owned cfg world i) (he : cfg.exclusive = true)
include h he

theorem Owned.rem (env : Env) (w : Nat) : Owned cfg world (remWriter cfg (world.env env) i w) := by
  have hok := (remWriter_ok h.toWritersOk (world.env env) w).1
  revert hok
  unfold remWriter hcRemWriterGone hcLookupHandle
  rcases hl : BinSearch.lookup i.writers w with ⟨k, _ | _⟩
  · exact fun _ => h
  have hmem := fun v => BinSearch.mem_of_lookup_true h.sorted hl (v := v)
  have hsub : ∀ v ∈ BinSearch.removeAt i.writers k, v ∈ i.writers := fun v hv => ((hmem v).1 hv).1
  have hsort := h.sorted.sublist (BinSearch.removeAt_sublist i.writers k)
  have h0 : 0 ∉ BinSearch.removeAt i.writers k := fun hm => h.nonzero (hsub 0 hm)
  have hcmp := h.comparable.subset hsub
  dsimp only
  split
  · exact fun hok => ⟨hok, h0, hcmp, fun hne => owner_best env { i with writers := _ } hsort hne h0 hcmp⟩
  · rename_i hw
    have hne : i.owner ≠ w := fun ho => hw (by simp [he, ho])
    refine fun hok => ⟨hok, h0, hcmp, fun hnil => ?_⟩
    have hbest := h.best fun hi => hnil (eq_nil_of_subset_nil (hi ▸ hsub))
    exact hbest.subset ((hmem _).2 ⟨hbest.1, hne⟩) hsub

theorem Owned.drop (env : Env) (w : Nat) : Owned cfg world (dropWriter cfg (world.env env) i w) := by
  unfold dropWriter
  split
  · exact .empty rfl rfl
  · exact h.rem he env w

theorem Owned.join (env : Env) {w : Nat} (hw0 : w ≠ 0) (hc : Comparable world (w :: i.writers)) :
    Owned cfg world (joinWriter cfg (world.env env) i w) := by
  have hj := joinWriter_ok h.toWritersOk (world.env env) w
  have ha := addWriter_ok h.toWritersOk w
  revert hj
  unfold joinWriter
  rcases addWriter_cases h.toWritersOk w with ⟨_, heq⟩ | ⟨_, heq⟩ | ⟨_, ws, heq, hws⟩
  · simp only [heq, he, Bool.and_false, Bool.false_eq_true, if_false]
    exact fun _ => h
  · simp only [heq, he, Bool.and_false, Bool.false_eq_true, if_false]
    refine fun hj => ⟨hj, by simpa using hw0.symm, ?_, fun _ => ⟨mem_singleton_self w, by simp⟩⟩
    exact hc.subset (by simp)
  · rw [heq] at ha
    have hsub : ∀ v ∈ ws, v ∈ w :: i.writers := fun v hv => mem_cons.2 ((hws v).1 hv)
    have h0 : 0 ∉ ws := fun hm => (mem_cons.1 (hsub 0 hm)).elim (fun h => hw0 h.symm) h.nonzero
    simp only [heq, he, Bool.and_self, if_true]
    refine fun hj => ⟨hj, h0, hc.subset hsub, fun hne => ?_⟩
    exact owner_best env { i with writers := ws } ha.sorted hne h0 (hc.subset hsub)

end

theorem Owned.best_of_passed (h : Owned cfg world (updateWriters cfg env i c).1) (hi : WritersOk cfg i)
    (he : cfg.exclusive = true) (hk : c.kind = .alive) (hu : (updateWriters cfg env i c).2 = some c1) :
    Best world (updateWriters cfg env i c).1.writers c.writer := by
  obtain ⟨heq, ho⟩ := owner_of_updateWriters he hk hu
  have hbest := h.best (heq ▸ ne_nil_of_mem (mem_joinWriter hi env c.writer))
  rw [← heq] at ho
  rcases ho with ho | ho
  · exact absurd (ho ▸ hbest.1) h.nonzero
  · exact ho ▸ hbest

/-! ## What an event does to the writers -/

def SameWriters (s t : State) : Prop :=
  ∀ j ∈ t.instances, ∃ i ∈ s.instances, j.handle = i.handle ∧ j.writers = i.writers ∧ j.owner = i.owner

variable {s s' t : State} {fuel : Nat}

theorem SameWriters.refl (s : State) : SameWriters s s := fun i hi => ⟨i, hi, rfl, rfl, rfl⟩

theorem SameWriters.trans (h : SameWriters s t) (h' : SameWriters t u) : SameWriters s u := by
  intro k hk
  obtain ⟨j, hj, h1, h2, h3⟩ := h' k hk
  obtain ⟨i, hi, h4, h5, h6⟩ := h j hj
  exact ⟨i, hi, h1.trans h4, h2.trans h5, h3.trans h6⟩

theorem Shrunk.sameWriters (h : Shrunk s t) : SameWriters s t := by
  intro j hj
  obtain ⟨i, hi, hk⟩ := h.instances j hj
  exact ⟨i, hi, hk.handle, hk.writers, hk.owner⟩

theorem sameWriters_modify (h : Nat)
    (hf : ∀ i : Instance, (f i).handle = i.handle ∧ (f i).writers = i.writers ∧ (f i).owner = i.owner) :
    SameWriters s (s.modify h f) := by
  intro j hj
  obtain ⟨i, hi, rfl⟩ := mem_modify.1 hj
  refine ⟨i, hi, ?_⟩
  split
  · exact hf i
  · exact ⟨rfl, rfl, rfl⟩

theorem sameWriters_insert (ip : Option Nat) (c : Change) : SameWriters s (insertChange cfg s ip c) := by
  intro j hj
  obtain ⟨i, hi, rfl⟩ := mem_insertChange.1 hj
  refine ⟨i, hi, ?_⟩
  split
  · exact ⟨handle_enter i c.kind, writers_enter i c.kind, owner_enter i c.kind⟩
  · exact ⟨rfl, rfl, rfl⟩

theorem hcFreeInstance_shrunk (cfg : Config) (s : State) (h : Nat) : Shrunk s (hcFreeInstance s h) :=
  (Calm.free h : Calm cfg s _).shrunk

theorem Added.sameWriters (h : Added cfg ip c s t r) :
    SameWriters s t ∧ ∀ d ∈ t.changes, d ∈ s.changes ∨ d.handle = c.handle ∧ d.writer = c.writer ∧ d.kind = c.kind := by
  cases h with
  | rejected h _ => exact ⟨h.shrunk.sameWriters, fun d hd => .inl (h.shrunk.changes.subset hd)⟩
  | inserted h _ hst _ h' =>
    refine ⟨h.shrunk.sameWriters.trans ((sameWriters_insert ip _).trans h'.shrunk.sameWriters), fun d hd => ?_⟩
    have hd := h'.shrunk.changes.subset hd
    rw [insertChange_changes, mem_ccrefAdd] at hd
    rcases hd with rfl | hd
    · exact .inr ⟨hst.handle, hst.writer, hst.kind⟩
    · exact .inl (h.shrunk.changes.subset hd)

theorem updateWriters_writer (h : (updateWriters cfg env i c).2 = some c1) : c1.writer = c.writer := by
  unfold updateWriters at h
  grind

/-- **After the list of writers has been updated, `hc_add` leaves it alone**, and a change that is new is of the writer
that passed. -/
theorem hcAdd_writers (hw : WF cfg s) (hr : cfg.writer = false) (hm : cfg.multiInst = true)
    (h : hcAdd cfg fuel env s i c = some (s', r)) :
    SameWriters (s.modify i.handle fun j => (updateWriters cfg env j c).1) s' ∧
      ∀ d ∈ s'.changes, d ∈ s.changes ∨ d.handle = c.handle ∧ d.writer = c.writer ∧
        ∃ c1, (updateWriters cfg env i c).2 = some c1 ∧ d.kind = c1.kind := by
  unfold hcAdd at h
  simp only [hr, Bool.false_eq_true, if_false] at h
  have h1 : WF cfg (s.modify i.handle fun j => (updateWriters cfg env j c).1) :=
    hw.modify _ fun j => updateWriters_lists cfg env j c
  cases hu : (updateWriters cfg env i c).2 with
  | none =>
    rw [hu] at h
    cases h
    exact ⟨.refl _, fun d hd => .inl hd⟩
  | some c1 =>
    simp only [hu] at h
    split at h
    · have h2 := sameWriters_modify (s := s.modify i.handle fun j => (updateWriters cfg env j c).1)
        (f := fun j => { j with kind := j.kind.or c1.kind }) i.handle fun _ => ⟨rfl, rfl, rfl⟩
      cases h
      split
      · refine ⟨h2.trans (hcFreeInstance_shrunk cfg _ _).sameWriters, fun d hd => ?_⟩
        have hd' := (hcFreeInstance_shrunk cfg _ _).changes.subset hd
        exact .inl hd'
      · exact ⟨h2, fun d hd => .inl hd⟩
    · have ha := (hcAddChange_added h1.handles h1.idle (by rw [hm]; rfl) h).sameWriters
      have hk := updateWriters_kept hu
      refine ⟨ha.1, fun d hd => (ha.2 d hd).imp_right ?_⟩
      rintro ⟨h3, h4, h5⟩
      exact ⟨h3.trans hk.2.1, h4.trans (updateWriters_writer hu), c1, rfl, h5⟩

theorem hcAddInst_writers (hw : WF cfg s) (hr : cfg.writer = false) (hm : cfg.multiInst = true)
    (h : hcAddInst cfg fuel env s n d = some (s', r)) :
    ∃ c, c.kind = d.kind ∧ c.writer = d.writer ∧ c.handle = n ∧
      SameWriters (s.modify n fun j => (updateWriters cfg env j c).1) s' ∧
      ∀ x ∈ s'.changes, x ∈ s.changes ∨ x.handle = n ∧ x.writer = d.writer ∧
        ∃ i ∈ s.instances, i.handle = n ∧ ∃ c1, (updateWriters cfg env i c).2 = some c1 ∧ x.kind = c1.kind := by
  have h1 : Stills cfg s { s with nextUid := s.nextUid + 1 } := .single .uid
  unfold hcAddInst at h
  simp only [hm, if_true] at h
  refine ⟨⟨s.nextUid, d.kind, d.writer, n, d.time, 0, 0, 0, d.length, d.db⟩, rfl, rfl, rfl, ?_⟩
  split at h
  · rename_i hi
    cases h
    refine ⟨fun j hj => ?_, fun x hx => .inl hx⟩
    have hne : j.handle ≠ n := by simpa using find?_eq_none.1 hi j hj
    exact ⟨j, mem_modify.2 ⟨j, hj, if_neg hne⟩, rfl, rfl, rfl⟩
  · rename_i i hi
    obtain ⟨hmem, hh⟩ := inst?_mem hi
    have ha := hcAdd_writers (hw.stills h1) hr hm h
    rw [hh] at ha
    refine ⟨ha.1, fun x hx => (ha.2 x hx).imp_right ?_⟩
    rintro ⟨h3, h4, c1, h5⟩
    exact ⟨h3, h4, i, hmem, hh, c1, h5⟩

/-! ## Whole runs -/

inductive OwnEvent where
  | cache (e : Event)
  | world (world : World)

def Event.inWorld (world : World) : Event → Event
  | .add h d env => .add h d (world.env env)
  | .unregister h t env => .unregister h t (world.env env)
  | .dispose h t env => .dispose h t (world.env env)
  | .remWriter w t env => .remWriter w t fun h => world.env (env h)
  | e => e

/-- A cache and the world it runs in. -/
def ownStep (cfg : Config) (fuel : Nat) (sw : State × World) : OwnEvent → Option (State × World)
  | .cache e => (step cfg fuel sw.1 (e.inWorld sw.2)).map fun s => (s, sw.2)
  | .world world => some (sw.1, world)

/-- A writer that joins can be told from the others of the instance, and a change of the world leaves the best writer of
an instance what it is.  `hc_unregister` and `hc_dispose` are for the caches of writers. -/
def KeepsOwner (sw : State × World) : OwnEvent → Prop
  | .cache (.add h d _) => d.kind.unregistered = false → d.writer ≠ 0 ∧
    ∀ i ∈ sw.1.instances, i.handle = h → Comparable sw.2 (d.writer :: i.writers)
  | .cache (.unregister ..) | .cache (.dispose ..) => False
  | .cache _ => True
  | .world world => ∀ i ∈ sw.1.instances, Comparable world i.writers ∧
    ∀ w ∈ i.writers, Best sw.2 i.writers w → Best world i.writers w

instance (sw : State × World) (e : OwnEvent) : Decidable (KeepsOwner sw e) := by
  unfold KeepsOwner
  split <;> infer_instance

def AllOwned (cfg : Config) (world : World) (s : State) : Prop := ∀ i ∈ s.instances, Owned cfg world i

theorem AllOwned.same (hs : AllOwned cfg world s) (h : SameWriters s t) : AllOwned cfg world t := by
  intro j hj
  obtain ⟨i, hi, _, hw, ho⟩ := h j hj
  exact (hs i hi).congr hw ho

theorem AllOwned.modify (hs : AllOwned cfg world s) (h : Nat)
    (hf : ∀ i ∈ s.instances, i.handle = h → Owned cfg world i → Owned cfg world (f i)) :
    AllOwned cfg world (s.modify h f) := by
  intro j hj
  obtain ⟨i, hi, rfl⟩ := mem_modify.1 hj
  split
  · exact hf i hi ‹_› (hs i hi)
  · exact hs i hi

theorem Owned.update (h : Owned cfg world i) (he : cfg.exclusive = true) (env : Env)
    (hc : c.kind.unregistered = false → c.writer ≠ 0 ∧ Comparable world (c.writer :: i.writers)) :
    Owned cfg world (updateWriters cfg (world.env env) i c).1 := by
  rw [updateWriters_fst]
  split
  · exact h.drop he env c.writer
  · rename_i hk
    have := hc (by simpa using hk)
    exact h.join he env this.1 this.2

section
variable (hw : WF cfg s) (hs : AllOwned cfg world s) (hr : cfg.writer = false) (hm : cfg.multiInst = true)
  (he : cfg.exclusive = true)
include hw hs hr hm he

theorem AllOwned.add (h : hcAddInst cfg fuel (world.env env) s n d = some (s', r))
    (hc : d.kind.unregistered = false → d.writer ≠ 0 ∧
      ∀ i ∈ s.instances, i.handle = n → Comparable world (d.writer :: i.writers)) : AllOwned cfg world s' := by
  obtain ⟨c, hk, hcw, _, hsame, _⟩ := hcAddInst_writers hw hr hm h
  refine (hs.modify n fun i hi hn ho => ho.update he env fun hu => ?_).same hsame
  rw [hk] at hu
  rw [hcw]
  exact ⟨(hc hu).1, (hc hu).2 i hi hn⟩

theorem AllOwned.visit {env : Nat → Env} {t : Int}
    (h : instRemWriter cfg fuel (fun h => world.env (env h)) w t s n = some s') : AllOwned cfg world s' := by
  unfold instRemWriter at h
  split at h
  · cases h
    exact hs
  split at h
  · cases h
    exact hs
  split at h
  · obtain ⟨⟨u, r⟩, hrel, rfl⟩ := Option.map_eq_some_iff.1 h
    unfold hcRelease at hrel
    split at hrel
    · cases hrel
      exact hs
    · have hadd : hcAddInst cfg fuel (world.env { env n with rel := false }) s n
          ⟨.notAliveUnregistered, w, t, 0, false⟩ = some (u, r) := hrel
      exact AllOwned.add hw hs hr hm he hadd (fun hun => by cases hun)
  · cases h
    exact hs.modify n fun i _ _ ho => ho.rem he (env n) w

end

theorem AllOwned.removed (hr : cfg.writer = false) (hm : cfg.multiInst = true) (he : cfg.exclusive = true)
    {env : Nat → Env} {t : Int} : ∀ {hs : List Nat} {s s' : State}, WF cfg s → AllOwned cfg world s →
    hs.foldlM (fun s h => instRemWriter cfg fuel (fun h => world.env (env h)) w t s h) s = some s' →
    AllOwned cfg world s'
  | [], s, s', _, ho, h => by
    cases h
    exact ho
  | n :: ns, s, s', hw, ho, h => by
    obtain ⟨s1, h1, h⟩ := Option.bind_eq_some_iff.1 (foldlM_cons.symm.trans h)
    exact removed hr hm he (hw.grown (instRemWriter_grown hw h1)) (ho.visit hw hr hm he h1) h

/-- **The owner stays the best.** -/
theorem AllOwned.step (hr : cfg.writer = false) (hm : cfg.multiInst = true) (he : cfg.exclusive = true)
    (hw : WF cfg s) (hs : AllOwned cfg world s) (hok : KeepsOwner (s, world) (.cache e))
    (h : step cfg fuel s (e.inWorld world) = some s') : AllOwned cfg world s' := by
  cases e with
  | register n b =>
    dsimp only [Event.inWorld, Cache.step] at h
    split at h
    · cases h
    split at h
    · cases h
      exact hs.same (sameWriters_modify n fun _ => ⟨rfl, rfl, rfl⟩)
    · cases h
      intro i hi
      rcases mem_append.1 hi with hi | hi
      · exact hs i hi
      · rw [mem_singleton.1 hi]
        exact .empty rfl rfl
  | add n d env =>
    obtain ⟨⟨u, r⟩, hr', rfl⟩ := Option.map_eq_some_iff.1 h
    exact hs.add hw hr hm he hr' hok
  | unregister n t env | dispose n t env => exact hok.elim
  | take u =>
    obtain ⟨c, hc, rfl⟩ := Option.map_eq_some_iff.1 h
    rw [hcChangeRemove, if_pos hm]
    exact hs.same (shrunk_modify s _ (kept_dropRef c.uid) (dropRef_sublist _ _)).sameWriters
  | ack n sn =>
    dsimp only [Event.inWorld, Cache.step] at h
    rw [if_neg (by simp [hr])] at h
    cases h
  | free n =>
    cases h
    exact hs.same (hcFreeInstance_shrunk cfg s n).sameWriters
  | remWriter w t env =>
    dsimp only [Event.inWorld, Cache.step] at h
    rw [if_neg (by simp [hr]), hcRemWriterRemoved, if_neg (by simp [hm])] at h
    exact AllOwned.removed hr hm he hw hs h
  | observe m r =>
    dsimp only [Event.inWorld, Cache.step] at h
    rw [if_neg (by simp [hr])] at h
    cases h
  | seen n u =>
    cases h
    exact hs.same (sameWriters_modify n fun _ => ⟨rfl, rfl, rfl⟩)
  | filter n b =>
    cases h
    exact hs.same (sameWriters_modify n fun _ => ⟨rfl, rfl, rfl⟩)

theorem owned_of_run (hr : cfg.writer = false) (hm : cfg.multiInst = true) (he : cfg.exclusive = true)
    (h : Run (ownStep cfg fuel) KeepsOwner (State.init, world) es sw) : WF cfg sw.1 ∧ AllOwned cfg sw.2 sw.1 := by
  refine h.invariant (fun _ sw => WF cfg sw.1 ∧ AllOwned cfg sw.2 sw.1) ⟨wf_init cfg, fun _ h =>
    absurd h not_mem_nil⟩ ?_
  rintro _ ⟨s, world⟩ e sw' ⟨hw, hs⟩ hok h
  cases e with
  | cache e =>
    obtain ⟨s', hstep, rfl⟩ := Option.map_eq_some_iff.1 h
    exact ⟨hw.step hstep, hs.step hr hm he hw hok hstep⟩
  | world world' =>
    cases h
    refine ⟨hw, fun i hi => ?_⟩
    have ho := hs i hi
    exact ⟨ho.toWritersOk, ho.nonzero, (hok i hi).1, fun hne => (hok i hi).2 _ (ho.best hne).1 (ho.best hne)⟩

def exclusiveReader : Config := hcNew volatileReader false false true false

def ranked (a b : Nat) : World := ⟨fun w => if w = 1 then a else b, some⟩

/-- The third change of a cache that takes in a sample of the writer 1. -/
def third : Change where
  uid := 2
  kind := .alive
  writer := 1
  handle := 3
  time := 5
  seqnr := 0
  dispCnt := 0
  noWCnt := 1
  length := 4
  db := true

def nextOfFirst : OwnEvent := .cache (.add 3 (sampleOf 1) calmEnv)

/-- The stronger writer has joined, and its strength has sunk to 4. -/
def strongerJoined : State × World :=
  (exec (ownStep exclusiveReader 1) KeepsOwner (State.init, ranked 5 3)
    [.cache (.register 3 false), .cache (.add 3 (sampleOf 2) calmEnv), nextOfFirst, .world (ranked 4 3)]).get
      (by decide)

def strongerStored : State × World := (ownStep exclusiveReader 1 strongerJoined nextOfFirst).get (by decide +kernel)

/-- After the run a sample of the writer 1 is stored, which is not the best. -/
def StoresOther (world : World) (es : List OwnEvent) : Prop :=
  ∃ sw sw', Run (ownStep exclusiveReader 1) (fun _ _ => True) (State.init, world) es sw ∧
    ownStep exclusiveReader 1 sw nextOfFirst = some sw' ∧
    third ∈ sw'.1.changes ∧ third ∉ sw.1.changes ∧ ∀ i ∈ sw'.1.instances, ¬ Best sw'.2 i.writers third.writer

theorem StoresOther.of_any
    (h : ((exec (ownStep exclusiveReader 1) (fun _ _ => True) (State.init, world) es).any fun sw =>
    (ownStep exclusiveReader 1 sw nextOfFirst).any fun sw' => third ∈ sw'.1.changes ∧ third ∉ sw.1.changes ∧
      ∀ i ∈ sw'.1.instances, ¬ Best sw'.2 i.writers third.writer) = true) : StoresOther world es := by
  simp only [Option.any_eq_true, decide_eq_true_eq] at h
  obtain ⟨sw, hrun, sw', hstep, h⟩ := h
  exact ⟨sw, sw', Run.of_exec hrun, hstep, h⟩

end Qeo.Cache
