import QeoCore.CacheOrder
import Mathlib.Data.List.DropRight
/-!
# CacheLimits — the limits of the history cache, and whether adding ends

The eviction by the depth of the history always ends.  The eviction by the sample limit hands the oldest change of the
whole cache to `hc_remove_i` with the instance of the new one; a change of another instance is then left where it is.
-/
namespace Qeo.Cache

open List Bool Nat Option State Trace

variable {cfg : Config} {ip jp : Option Nat} {s t : State} {c : Change} {f : Instance → Instance} {fuel h : Nat}
  {k : Kind} {i : Instance}

/-! ## The limits -/

/-- **At most `hc_max_depth` ALIVE samples in an instance, at most `hc_max_samples` in the cache.**  A cache without
instances is its own only instance. -/
structure Limited (cfg : Config) (s : State) : Prop where
  depth : ∀ i ∈ s.instances, nData i.list ≤ cfg.maxDepth
  single : cfg.multiInst = false → nData s.changes ≤ cfg.maxDepth
  samples : nData s.changes ≤ cfg.maxSamples

theorem Limited.fewer (hs : Limited cfg s) (h : Fewer s t) : Limited cfg t := by
  refine ⟨fun j hj => ?_, fun hm => ?_, le_trans (nData_le_of_sublist h.changes) hs.samples⟩
  · rcases h.instances j hj with h0 | ⟨i, hi, -, hl⟩
    · rw [h0]
      exact zero_le _
    · exact le_trans (nData_le_of_sublist hl) (hs.depth i hi)
  · exact le_trans (nData_le_of_sublist h.changes) (hs.single hm)

theorem nData_ccrefAdd (b : Bool) (l : List Change) (c : Change) :
    nData (ccrefAdd b l c) = nData l + if c.kind = .alive then 1 else 0 := by
  unfold nData
  rw [(ccrefAdd_perm b l c).countP_eq, countP_cons]
  simp

theorem nData_ccrefAdd_le (hl : nData l ≤ n) (hr : c.kind = .alive → nData l < n) : nData (ccrefAdd b l c) ≤ n := by
  rw [nData_ccrefAdd]
  split
  · exact hr ‹_›
  · exact hl

theorem Limited.insert (hw : WF cfg s) (hs : Limited cfg s)
    (hc : Ready cfg s ip c) : Limited cfg (insertChange cfg s ip c) := by
  refine ⟨fun j hj => ?_, fun hm => ?_, ?_⟩
  · obtain ⟨i, hi, rfl⟩ := mem_insertChange.1 hj
    split
    · rename_i hip
      refine nData_ccrefAdd_le (hs.depth i hi) fun hk => ?_
      have := (hc.room hk).depth
      rwa [hip, listOf_eq hw.handles hi] at this
    · exact hs.depth i hi
  · have hip : ip = none := by simpa using hc.multi.trans hm
    rw [insertChange_changes]
    refine nData_ccrefAdd_le (hs.single hm) fun hk => ?_
    have := (hc.room hk).depth
    rwa [hip] at this
  · rw [insertChange_changes]
    exact nData_ccrefAdd_le hs.samples fun hk => (hc.room hk).samples

theorem Limited.grown (hw : WF cfg s) (hs : Limited cfg s) (h : Grown cfg p s s') :
    Limited cfg s' := by
  cases h with
  | still h => exact hs.fewer h.fewer
  | insert h hr _ h' => exact (Limited.insert (hw.stills h) (hs.fewer h.fewer) hr).fewer h'.fewer

theorem limited_step (hw : WF cfg s) (hs : Limited cfg s) (h : step cfg fuel s e = some s') : Limited cfg s' :=
  (step_induction hw hs h fun hw hu hg => hu.grown hw hg).2

theorem limited_init (cfg : Config) : Limited cfg init :=
  ⟨nofun, fun _ => zero_le _, zero_le _⟩

/-! ## One round of an eviction loop -/

def Live (ip : Option Nat) (s : State) : Prop := ∀ h, ip = some h → ∃ i ∈ s.instances, i.handle = h

def Mine (ip : Option Nat) (c : Change) : Prop := ∀ h, ip = some h → c.handle = h

def Held (ip : Option Nat) (s : State) : Prop := ∀ h, ip = some h → ∃ i ∈ s.instances, i.handle = h ∧ i.wait = true

theorem live_modify (h : Nat) (hf : ∀ i, (f i).handle = i.handle) (hl : Live ip s) : Live ip (s.modify h f) := by
  intro n hn
  obtain ⟨i, hi, hh⟩ := hl n hn
  refine ⟨_, mem_modify.2 ⟨i, hi, rfl⟩, ?_⟩
  split
  · rw [hf, hh]
  · exact hh

theorem held_modify (h : Nat)
    (hf : ∀ i, (f i).handle = i.handle) (hw : ∀ i, i.wait = true → (f i).wait = true) (hl : Held ip s) :
    Held ip (s.modify h f) := by
  intro n hn
  obtain ⟨i, hi, hh, hiw⟩ := hl n hn
  refine ⟨_, mem_modify.2 ⟨i, hi, rfl⟩, ?_⟩
  split
  · exact ⟨(hf i).trans hh, hw i hiw⟩
  · exact ⟨hh, hiw⟩

theorem live_unlink (c : Change) (hl : Live ip s) : Live ip (s.unlink jp c) := by
  unfold unlink
  split
  · exact hl
  · split
    · exact live_modify (s := s) _ (fun _ => rfl) hl
    · exact hl

theorem held_unlink (c : Change) (hl : Held ip s) : Held ip (s.unlink jp c) := by
  unfold unlink
  split
  · exact hl
  · split
    · exact held_modify (s := s) _ (fun _ => rfl) (fun _ h => h) hl
    · exact hl

theorem held_sweep (hs : s.Handles) (hl : Held ip s) : Held ip (s.sweep jp) := by
  unfold sweep
  split
  · exact hl
  rename_i h
  split
  · rename_i j hj
    split
    · rename_i hfree
      intro n hn
      obtain ⟨i, hi, hh, hiw⟩ := hl n hn
      refine ⟨i, ?_, hh, hiw⟩
      unfold hcFreeInstance
      rw [hj]
      refine mem_filter.2 ⟨hi, ?_⟩
      have hne : i.handle ≠ h := by
        intro he
        have hij : i = j := eq_of_handle hs hi (inst?_mem hj).1 (he.trans (inst?_mem hj).2.symm)
        rw [← hij, hiw] at hfree
        simp at hfree
      simpa using hne
    · exact hl
  · exact hl

section
variable (hw : WF cfg s)
include hw

theorem held_hcAcknowledged (hcw : cfg.writer = true)
    (hjp : jp.isSome = cfg.multiInst) (sn : Nat) (hl : Held ip s) : Held ip (hcAcknowledged cfg s jp sn) := by
  unfold hcAcknowledged
  split
  · exact hl
  rename_i c _
  have hw1 : WF cfg { s with wack := Function.update s.wack c.uid (decWack (s.wack c.uid)) } :=
    hw.calm (.fields rfl rfl rfl rfl fun _ => .inl hcw)
  split
  · exact hl
  · split
    · exact held_sweep (hw1.unlink hjp c).handles (held_unlink c hl)
    · exact held_sweep hw1.handles hl

theorem live_hcWaitAcked (hcw : cfg.writer = true) (w : Wait)
    (hl : Live ip s) : Live ip (hcWaitAcked cfg s ip w) := by
  have hheld : Held ip (s.setWait ip true) := by
    intro h hip
    obtain ⟨i, hi, hh⟩ := hl h hip
    rw [hip]
    exact ⟨_, mem_modify.2 ⟨i, hi, rfl⟩, by rw [if_pos hh]; exact ⟨hh, rfl⟩⟩
  have hacks : ∀ (l : List (Nat × Nat)) (u : State), WF cfg u → Held ip u →
      Held ip (l.foldl (fun s a => hcAcknowledged cfg s (cfg.ip a.1) a.2) u) := by
    intro l
    induction l with
    | nil => exact fun _ _ h => h
    | cons a as ih =>
      intro u hu hheld
      exact ih _ (hu.calms (hcAcknowledged_calms hcw u (isSome_ip cfg a.1) a.2))
        (held_hcAcknowledged hu hcw (isSome_ip cfg a.1) a.2 hheld)
  have hend := hacks w.acks _ (hw.calms (setWait_calms s ip true)) hheld
  have hlive : Live ip (w.acks.foldl (fun s a => hcAcknowledged cfg s (cfg.ip a.1) a.2) (s.setWait ip true)) := by
    intro h hip
    obtain ⟨i, hi, hh, -⟩ := hend h hip
    exact ⟨i, hi, hh⟩
  unfold hcWaitAcked setWait
  split
  · exact live_modify _ (fun _ => rfl) hlive
  · exact hlive

theorem live_hcRemoveI (w : Wait) (c : Change) (rel : Bool)
    (hl : Live ip s) : Live ip (hcRemoveI cfg w s ip c rel).1 := by
  unfold hcRemoveI
  split
  · split
    · rename_i hwack
      have hcw : cfg.writer = true := hw.idle.resolve_right fun h => hwack (h.1 c.uid)
      split
      · exact live_hcWaitAcked hw hcw w hl
      · exact live_unlink c (live_hcWaitAcked hw hcw w hl)
    · split
      · exact hl
      · exact live_unlink c hl
  · exact live_unlink c hl

theorem not_mem_unlink (hip : ip.isSome = cfg.multiInst)
    (hc : Mine ip c) : c ∉ (s.unlink ip c).changes := by
  unfold unlink
  split
  · exact fun h => (mem_dropRef.1 h).2 rfl
  rename_i h
  split
  · exact fun h => (mem_dropRef.1 h).2 rfl
  rename_i hn
  intro hmem
  obtain ⟨i, hi, hih⟩ := hw.owned hip.symm c hmem
  have hh : i.handle = h := hih.trans (hc h rfl)
  apply hn
  rw [← hh, listOf_eq hw.handles hi]
  exact any_uid.2 ⟨c, (hw.mirror i hi c).2 ⟨hmem, hih.symm⟩, rfl⟩

theorem hcRemoveI_gone
    (hip : ip.isSome = cfg.multiInst) (hc : Mine ip c) (hok : (hcRemoveI cfg w s ip c rel).2 = .ok) :
    c ∉ (hcRemoveI cfg w s ip c rel).1.changes := by
  unfold hcRemoveI at hok ⊢
  split at hok
  · split at hok
    · rename_i hwack
      have hcw : cfg.writer = true := hw.idle.resolve_right fun h => hwack (h.1 c.uid)
      split at hok
      · cases hok
      · rw [if_pos ‹_›, if_pos hwack, if_neg ‹_›]
        exact not_mem_unlink (hw.calms (hcWaitAcked_calms hcw s ip w)) hip hc
    · split at hok
      · cases hok
      · rw [if_pos ‹_›, if_neg ‹_›, if_neg ‹_›]
        exact not_mem_unlink hw hip hc
  · rw [if_neg ‹_›]
    exact not_mem_unlink hw hip hc

end

/-! ## The loops -/

theorem length_lt_of_gone (h : Shrunk s t) (hc : c ∈ s.changes) (hn : c ∉ t.changes) :
    t.changes.length < s.changes.length := by
  apply lt_of_le_of_ne h.changes.length_le
  intro he
  rw [h.changes.eq_of_length he] at hn
  exact hn hc

structure Evicting (cfg : Config) (ip : Option Nat) (P : State → Prop) (s : State) : Prop where
  wf : WF cfg s
  live : Live ip s
  loop : P s

theorem evict_round {lp : State → List Change} {again : State → Bool} (hip : ip.isSome = cfg.multiInst)
    (hhead : ∀ u, Evicting cfg ip P u → ∃ c ∈ u.changes, (lp u).head? = some c ∧ Mine ip c)
    (hnext : ∀ u v, Evicting cfg ip P u → Calms cfg u v → WF cfg v → again v = true → P v)
    (hu : Evicting cfg ip P u) (w : Wait) (rel : Bool) :
    ∃ v r, ((lp u).head?.map fun c => hcRemoveI cfg w u ip c rel) = some (v, r) ∧ Calms cfg u v ∧ WF cfg v ∧
      Live ip v ∧ (r = .ok → v.changes.length < u.changes.length) ∧ (again v = true → P v) := by
  obtain ⟨c, hc, hh, hmine⟩ := hhead u hu
  have hcalm := hcRemoveI_calms hu.wf.idle hip w c rel
  refine ⟨_, _, by rw [hh]; rfl, hcalm, hu.wf.calms hcalm, live_hcRemoveI hu.wf w c rel hu.live, fun hok => ?_,
    fun ha => hnext u _ hu hcalm (hu.wf.calms hcalm) ha⟩
  exact length_lt_of_gone hcalm.shrunk hc (hcRemoveI_gone hu.wf hip hmine hok)

/-- **An eviction loop that meets only changes of its instance ends**, and has removed one at least. -/
theorem evict_ends (P : State → Prop) (lp : State → List Change) (again : State → Bool)
    (hip : ip.isSome = cfg.multiInst)
    (hhead : ∀ u, Evicting cfg ip P u → ∃ c ∈ u.changes, (lp u).head? = some c ∧ Mine ip c)
    (hnext : ∀ u v, Evicting cfg ip P u → Calms cfg u v → WF cfg v → again v = true → P v)
    (hs : Evicting cfg ip P s) (hf : s.changes.length < fuel) (rel : Bool) (wait : Nat → Wait) :
    ∃ t r, evict cfg fuel rel wait ip lp again s = some (t, r) ∧ Calms cfg s t ∧ Live ip t ∧
      (r = .ok → t.changes.length < s.changes.length) := by
  have hround := fun (u : State) (hu : Evicting cfg ip P u) (w : Wait) => evict_round hip hhead hnext hu w rel
  have hsome : ∃ x, evict cfg fuel rel wait ip lp again s = some x := by
    apply DoWhile.doWhile_ends (fun x : State × Ret => Evicting cfg ip P x.1) (fun x => x.1.changes.length) _ hs hf
    intro k x hx
    obtain ⟨v, r, hb, -, hw, hl, hlt, hp⟩ := hround x.1 hx (wait k)
    refine ⟨(v, r), hb, fun ha => ?_⟩
    simp only [and_eq_true, decide_eq_true_eq] at ha
    exact ⟨⟨hw, hl, hp ha.2⟩, hlt ha.1⟩
  obtain ⟨⟨t, r⟩, ht⟩ := hsome
  obtain ⟨j, x, ⟨hx, hc⟩, hb, -⟩ :=
    DoWhile.doWhile_last (fun x : State × Ret => Evicting cfg ip P x.1 ∧ Calms cfg s x.1) (by
      intro k x x' hx hb ha
      obtain ⟨v, r, hb', hc, hw, hl, -, hp⟩ := hround x.1 hx.1 (wait k)
      obtain rfl : (v, r) = x' := some.inj (hb'.symm.trans hb)
      simp only [and_eq_true, decide_eq_true_eq] at ha
      exact ⟨⟨hw, hl, hp ha.2⟩, hx.2.trans hc⟩) ⟨hs, .refl⟩ ht
  obtain ⟨v, r', hb', hc', -, hl, hlt, -⟩ := hround x.1 hx (wait j)
  obtain ⟨rfl, rfl⟩ := Prod.mk.inj (some.inj (hb'.symm.trans hb))
  exact ⟨v, r', ht, hc.trans hc', hl, fun hok => lt_of_lt_of_le (hlt hok) hc.shrunk.changes.length_le⟩

theorem listOf_mine (hw : WF cfg s) (hc : c ∈ s.listOf ip) : c ∈ s.changes ∧ Mine ip c := by
  cases ip with
  | none => exact ⟨hc, nofun⟩
  | some n =>
    cases hi : s.inst? n with
    | none =>
      rw [listOf_none hi] at hc
      cases hc
    | some i =>
      rw [listOf_some hi] at hc
      obtain ⟨hmem, hh⟩ := inst?_mem hi
      obtain ⟨hc, hch⟩ := (hw.mirror i hmem c).1 hc
      exact ⟨hc, fun m hm => by rw [hch, hh]; exact some.inj hm⟩

theorem ne_nil_of_nData (h : 1 ≤ nData l) : l ≠ [] := by
  rintro rfl
  exact absurd h (by decide)

theorem evictDepth_ends (hip : ip.isSome = cfg.multiInst) (hd : 1 ≤ cfg.maxDepth)
    (hw : WF cfg s) (hl : Live ip s) (hf : s.changes.length < fuel) (env : Env) (k : Kind) :
    ∃ t r, evictDepth cfg fuel env s ip k = some (t, r) ∧ Calms cfg s t ∧ Live ip t ∧
      (depthFull cfg s ip k = true → r = .ok → t.changes.length < s.changes.length) := by
  unfold evictDepth
  split
  · rename_i hfull
    have hne : s.listOf ip ≠ [] := by
      unfold depthFull at hfull
      simp only [or_eq_true, and_eq_true, decide_eq_true_eq] at hfull
      rcases hfull with ⟨-, h⟩ | ⟨-, h⟩
      · exact length_pos_iff.1 (lt_of_lt_of_le hd h)
      · exact ne_nil_of_nData (le_trans hd h)
    obtain ⟨t, r, ht, hc, hl', hlt⟩ := evict_ends (fun u => u.listOf ip ≠ []) (fun u => u.listOf ip)
      (fun u => cfg.maxDepth ≤ nData (u.listOf ip)) hip
      (by
        intro u hu
        obtain ⟨c, cs, hcs⟩ := exists_cons_of_ne_nil hu.loop
        obtain ⟨hc, hm⟩ := listOf_mine hu.wf (c := c) (by rw [hcs]; exact mem_cons_self)
        exact ⟨c, hc, by rw [hcs]; rfl, hm⟩)
      (fun u v _ _ _ ha => ne_nil_of_nData (le_trans hd (by simpa using ha)))
      ⟨hw, hl, hne⟩ hf env.rel env.depthWait
    exact ⟨t, r, ht, hc, hl', fun _ => hlt⟩
  · rename_i hfull
    exact ⟨s, .ok, rfl, .refl, hl, fun h => absurd h hfull⟩

def surplus (cfg : Config) (s : State) : List Change := s.changes.rdrop (cfg.maxSamples - 1)

theorem surplus_sublist (h : t.changes.Sublist s.changes) : (surplus cfg t).Sublist (surplus cfg s) := by
  unfold surplus
  rw [rdrop_eq_reverse_drop_reverse, rdrop_eq_reverse_drop_reverse]
  exact (h.reverse.drop _).reverse

theorem head_mem_surplus (hm : 1 ≤ cfg.maxSamples) (hl : cfg.maxSamples ≤ s.changes.length) :
    ∃ c, s.changes.head? = some c ∧ c ∈ surplus cfg s := by
  cases hs : s.changes with
  | nil =>
    rw [hs] at hl
    simp at hl
    omega
  | cons c cs =>
    refine ⟨c, rfl, ?_⟩
    rw [hs] at hl
    unfold surplus List.rdrop
    rw [hs]
    obtain ⟨n, hn⟩ : ∃ n, (c :: cs).length - (cfg.maxSamples - 1) = n + 1 := ⟨_, (succ_pred_eq_of_pos (by omega)).symm⟩
    rw [hn]
    exact mem_cons_self

theorem samplesFull_length (h : samplesFull cfg s k = true) : cfg.maxSamples ≤ s.changes.length := by
  unfold samplesFull at h
  simp only [or_eq_true, and_eq_true, decide_eq_true_eq] at h
  rcases h with ⟨-, h⟩ | ⟨-, h⟩
  · exact h
  · exact le_trans h countP_le_length

/-- A reader that keeps everything removes nothing for a reliable caller. -/
def Refuses (cfg : Config) (rel : Bool) : Prop := cfg.mustAck = true ∧ cfg.writer = false ∧ rel = true

theorem evict_refuses {lp : State → List Change} (hr : Refuses cfg rel) (hw : WF cfg s) (hh : (lp s).head? = some c)
    (hf : s.changes.length < fuel) (wait : Nat → Wait) (again : State → Bool) :
    evict cfg fuel rel wait ip lp again s = some ({ s with blocked := true }, .noData) := by
  obtain ⟨hm, hcw, rfl⟩ := hr
  have hwack : s.wack c.uid = 0 := (hw.idle.resolve_left (by simp [hcw])).1 c.uid
  obtain ⟨n, rfl⟩ := Nat.exists_eq_add_of_lt hf
  have hrem (w : Wait) : hcRemoveI cfg w s ip c true = ({ s with blocked := true }, .noData) := by
    simp [hcRemoveI, hm, hcw, hwack]
  rw [evict, DoWhile.doWhile, hh, map_some, hrem]
  rfl

theorem evictSamples_ends (hip : ip.isSome = cfg.multiInst) (hm : 1 ≤ cfg.maxSamples)
    (hw : WF cfg s) (hl : Live ip s) (hf : s.changes.length < fuel) (env : Env) (k : Kind)
    (hown : samplesFull cfg s k = true → Refuses cfg env.rel ∨ ∀ c ∈ surplus cfg s, Mine ip c) :
    ∃ t r, evictSamples cfg fuel env s ip k = some (t, r) ∧ Live ip t := by
  unfold evictSamples
  split
  · rename_i hfull
    rcases hown hfull with href | hmine
    · obtain ⟨c, hh, -⟩ := head_mem_surplus hm (samplesFull_length hfull)
      exact ⟨_, _, evict_refuses href hw hh hf env.samplesWait _, hl⟩
    obtain ⟨t, r, ht, -, hl', -⟩ := evict_ends
      (fun u => cfg.maxSamples ≤ u.changes.length ∧ ∀ c ∈ surplus cfg u, Mine ip c) (fun u => u.changes)
      (fun u => cfg.maxSamples ≤ u.changes.length) hip
      (by
        intro u hu
        obtain ⟨c, hh, hc⟩ := head_mem_surplus hm hu.loop.1
        exact ⟨c, mem_of_head? hh, hh, hu.loop.2 c hc⟩)
      (fun u v hu hc _ ha => ⟨by simpa using ha,
        fun c hc' => hu.loop.2 c ((surplus_sublist hc.shrunk.changes).subset hc')⟩)
      ⟨hw, hl, samplesFull_length hfull, hmine⟩ hf env.rel env.samplesWait
    exact ⟨t, r, ht, hl'⟩
  · exact ⟨s, .ok, rfl, hl⟩

/-- **The condition**: nothing is removed; or the sample limit is not reached; or at most just reached while the history
depth makes the instance give up a change first; or all that the limit asks to remove belongs to the instance. -/
def Evictable (cfg : Config) (rel : Bool) (s : State) (ip : Option Nat) (k : Kind) : Prop :=
  Refuses cfg rel ∨ samplesFull cfg s k = false ∨ (depthFull cfg s ip k = true ∧ s.changes.length ≤ cfg.maxSamples) ∨
    ∀ c ∈ surplus cfg s, Mine ip c

theorem samplesFull_mono (h : t.changes.Sublist s.changes)
    (ht : samplesFull cfg t k = true) : samplesFull cfg s k = true := by
  unfold samplesFull at ht ⊢
  simp only [or_eq_true, and_eq_true, decide_eq_true_eq] at ht ⊢
  rcases ht with ⟨hr, ht⟩ | ⟨hk, ht⟩
  · exact .inl ⟨hr, le_trans ht h.length_le⟩
  · exact .inr ⟨hk, le_trans ht (nData_le_of_sublist h)⟩

theorem hcAddChange_ends (hip : ip.isSome = cfg.multiInst) (hd : 1 ≤ cfg.maxDepth)
    (hm : 1 ≤ cfg.maxSamples) (hw : WF cfg s) (hl : Live ip s)
    (hf : s.changes.length < fuel) (env : Env) (he : Evictable cfg env.rel s ip c.kind) :
    ∃ t r, hcAddChange cfg fuel env s ip c = some (t, r) := by
  obtain ⟨s1, r1, h1, hc, hl1, hlt⟩ := evictDepth_ends hip hd hw hl hf env c.kind
  unfold hcAddChange
  rw [h1, bind_some]
  split
  · exact ⟨s1, r1, rfl⟩
  rename_i hr1
  have hok : r1 = .ok := not_not.1 hr1
  have hsub := hc.shrunk.changes
  have hown : samplesFull cfg s1 c.kind = true → Refuses cfg env.rel ∨ ∀ d ∈ surplus cfg s1, Mine ip d := by
    intro hfull
    rcases he with he | he | ⟨hdf, hlen⟩ | he
    · exact .inl he
    · rw [samplesFull_mono hsub hfull] at he
      cases he
    · have h1 := hlt hdf hok
      have h2 := samplesFull_length hfull
      omega
    · exact .inr fun d hd => he d ((surplus_sublist hsub).subset hd)
  obtain ⟨s2, r2, h2, hl2⟩ := evictSamples_ends hip hm (hw.calms hc) hl1
    (lt_of_le_of_lt hsub.length_le hf) env c.kind hown
  rw [h2, bind_some]
  split
  · exact ⟨s2, r2, rfl⟩
  cases ip with
  | none => exact ⟨_, _, rfl⟩
  | some n =>
    obtain ⟨i, hi, hh⟩ := hl2 n rfl
    cases hi2 : s2.inst? n with
    | none => exact absurd (decide_eq_true hh) (find?_eq_none.1 hi2 i hi)
    | some j =>
      dsimp only
      rw [hi2]
      exact ⟨_, _, rfl⟩

theorem listOf_modify (hs : s.Handles)
    (hf : ∀ i, (f i).handle = i.handle ∧ (f i).list = i.list) (hw : WF cfg (s.modify h f))
    (hi : i ∈ s.instances) : (s.modify h f).listOf (some i.handle) = s.listOf (some i.handle) := by
  have hj : (if i.handle = h then f i else i) ∈ (s.modify h f).instances := mem_modify.2 ⟨i, hi, rfl⟩
  have := listOf_eq hw.handles hj
  rw [listOf_eq hs hi]
  split at this
  · rwa [(hf i).1, (hf i).2] at this
  · exact this

theorem updateWriters_alive (h : (updateWriters cfg env i c).2 = some c1) : c1.kind = .alive ↔ c.kind = .alive := by
  unfold updateWriters Kind.notAliveUnregistered at h
  unfold Kind.alive
  rcases c with ⟨_, ⟨_ | _, _ | _⟩, _⟩ <;> grind

theorem hcAdd_ends (hmu : cfg.multiInst = true) (hd : 1 ≤ cfg.maxDepth) (hm : 1 ≤ cfg.maxSamples)
    (hw : WF cfg s) (hi : i ∈ s.instances) (hf : s.changes.length < fuel) (env : Env)
    (he : Evictable cfg env.rel s (some i.handle) c.kind) : ∃ t r, hcAdd cfg fuel env s i c = some (t, r) := by
  unfold hcAdd
  generalize hs1 : (if cfg.writer then s else s.modify i.handle fun j => (updateWriters cfg env j c).1) = s1
  have hlist : WF cfg s1 ∧ Live (some i.handle) s1 ∧ s1.changes = s.changes ∧
      s1.listOf (some i.handle) = s.listOf (some i.handle) := by
    have hl : Live (some i.handle) s := fun n hn => ⟨i, hi, some.inj hn⟩
    rw [← hs1]
    split
    · exact ⟨hw, hl, rfl, rfl⟩
    · have hwm := hw.modify i.handle fun j => updateWriters_lists cfg env j c
      exact ⟨hwm, live_modify _ (fun j => (updateWriters_lists cfg env j c).1) hl, rfl,
        listOf_modify hw.handles (fun j => updateWriters_lists cfg env j c) hwm hi⟩
  obtain ⟨hw1, hl1, hc1, hlo⟩ := hlist
  split
  · exact ⟨_, _, rfl⟩
  rename_i c1 hk
  have halive : c1.kind = .alive ↔ c.kind = .alive := by
    split at hk
    · cases hk
      exact Iff.rfl
    · exact updateWriters_alive hk
  split
  · exact ⟨_, _, rfl⟩
  apply hcAddChange_ends (by rw [hmu]; rfl) hd hm hw1 hl1 (hc1 ▸ hf) env
  have hs : samplesFull cfg s1 c1.kind = samplesFull cfg s c.kind := by
    unfold samplesFull
    simp only [hc1, halive]
  have hdf : depthFull cfg s1 (some i.handle) c1.kind = depthFull cfg s (some i.handle) c.kind := by
    unfold depthFull
    simp only [hlo, halive]
  unfold Evictable surplus
  rw [hs, hdf, hc1]
  exact he

theorem hcAddInst_ends (hd : 1 ≤ cfg.maxDepth) (hm : 1 ≤ cfg.maxSamples) (hw : WF cfg s)
    (hf : s.changes.length < fuel) (env : Env) (h : Nat) (he : Evictable cfg env.rel s (cfg.ip h) d.kind) :
    ∃ t r, hcAddInst cfg fuel env s h d = some (t, r) := by
  have hw1 : WF cfg { s with nextUid := s.nextUid + 1 } := hw.still .uid
  unfold hcAddInst
  dsimp only
  unfold Config.ip at he
  split
  · rename_i hmu
    rw [if_pos hmu] at he
    split
    · exact ⟨_, _, rfl⟩
    · rename_i i hi
      obtain ⟨hmem, rfl⟩ := inst?_mem hi
      exact hcAdd_ends hmu hd hm hw1 hmem hf env he
  · rename_i hmu
    rw [if_neg hmu] at he
    exact hcAddChange_ends (by simpa using hmu) hd hm hw1 (fun _ h => by cases h) hf env he

/-! ## Runs -/

theorem one_le_toUnsigned (h : 1 ≤ n) : 1 ≤ toUnsigned n := by
  have h1 : (1 : Int) ≤ n.toInt := by simpa using Int32.le_iff_toInt_le.1 h
  unfold toUnsigned
  by_contra h0
  have h2 : n.toUInt32 = 0 := UInt32.toNat_inj.1 (by omega : n.toUInt32.toNat = 0)
  have h3 : n = 0 := by simpa using congrArg UInt32.toInt32 h2
  rw [h3] at h1
  exact absurd h1 (by decide)

theorem one_le_limit (h : n = -1 ∨ 1 ≤ n) : 1 ≤ limit n := by
  unfold limit
  split
  · decide
  · exact one_le_toUnsigned (h.resolve_left ‹_›)

theorem one_le_limits (hh : qtHistoryValid q = true) (hr : qtResourceLimitsValid q = true)
    (writer builtin keys refType : Bool) :
    1 ≤ (hcNew q writer builtin keys refType).maxDepth ∧ 1 ≤ (hcNew q writer builtin keys refType).maxSamples := by
  unfold qtHistoryValid at hh
  unfold qtResourceLimitsValid at hr
  simp at hh hr
  have hs : 1 ≤ limit q.maxSamples := one_le_limit hr.1.1.1
  have hi : 1 ≤ limit q.maxSamplesPerInstance := one_le_limit hr.1.2
  refine ⟨?_, hs⟩
  unfold hcNew
  split
  · split
    · exact hi
    · exact hs
  · rename_i hk
    exact one_le_toUnsigned (hh.resolve_left hk)

/-- **In every state a history cache reaches the limits hold, and `hc_add` ends, within a round for every cached change,
and keeps them, when the sample limit does not ask for a change of another instance.** -/
theorem limited_and_ends (q : Qos) (hh : qtHistoryValid q = true) (hr : qtResourceLimitsValid q = true)
    (writer builtin keys refType : Bool) (fuel : Nat) {es : List Event} {s : State}
    (hrun : Run (step (hcNew q writer builtin keys refType) fuel) (fun _ _ => True) State.init es s) :
    Limited (hcNew q writer builtin keys refType) s ∧ ∀ h d env n, s.changes.length < n →
        Evictable (hcNew q writer builtin keys refType) env.rel s ((hcNew q writer builtin keys refType).ip h) d.kind →
        ∃ t r, hcAddInst (hcNew q writer builtin keys refType) n env s h d = some (t, r) ∧
          Limited (hcNew q writer builtin keys refType) t := by
  obtain ⟨hd, hm⟩ := one_le_limits hh hr writer builtin keys refType
  generalize hcNew q writer builtin keys refType = cfg at *
  obtain ⟨hw, hl⟩ := holds_of_run (limited_init cfg) (fun hw hs _ hstep => limited_step hw hs hstep) hrun
  refine ⟨hl, fun h d env n hn he => ?_⟩
  obtain ⟨t, r, ht⟩ := hcAddInst_ends hd hm hw hn env h he
  exact ⟨t, r, ht, hl.grown hw (hcAddInst_grown hw ht)⟩

def oneSample : Qos :=
  { Qos.keepLast with maxSamples := 1, maxSamplesPerInstance := 1, durability := true, instOrder := true }

theorem limited_and_ends_one : Limited (hcNew oneSample true false true false)
    ((exec (step (hcNew oneSample true false true false) 1) (fun _ _ => True) State.init
      [.register 1 true, .register 2 true, .add 1 (sampleAt 5) calmEnv]).get (by decide)) ∧
    ∃ t r, hcAddInst (hcNew oneSample true false true false) 2 calmEnv
      ((exec (step (hcNew oneSample true false true false) 1) (fun _ _ => True) State.init
        [.register 1 true, .register 2 true, .add 1 (sampleAt 5) calmEnv]).get (by decide)) 1 (sampleAt 7) =
      some (t, r) ∧ Limited (hcNew oneSample true false true false) t :=
  have h := limited_and_ends oneSample (by decide) (by decide) true false true false 1
    (Run.of_isSome : Run _ _ _ [.register 1 true, .register 2 true, .add 1 (sampleAt 5) calmEnv] _)
  ⟨h.1, h.2 1 (sampleAt 7) calmEnv 2 (by decide) (.inr (.inr (.inl (by decide))))⟩

/-- **Each cached change stands in the list of one instance.** -/
theorem one_instance_of_run (hm : cfg.multiInst = true) (hr : Run (step cfg fuel) ok init es s) (hc : c ∈ s.changes) :
    ∃! i, i ∈ s.instances ∧ c ∈ i.list := by
  have hs := wf_of_run hr
  obtain ⟨i, hi, hh⟩ := hs.owned hm c hc
  refine ⟨i, ⟨hi, (hs.mirror i hi c).2 ⟨hc, hh.symm⟩⟩, fun j ⟨hj, hcj⟩ => ?_⟩
  exact inj_on_of_nodup_map hs.handles hj hi (((hs.mirror j hj c).1 hcj).2.symm.trans hh.symm)

theorem one_instance_of_two : ∃ s c, Run (step (hcNew oneSample true false true false) 1) (fun _ _ => True) init
    [.register 1 true, .register 2 true, .add 1 (sampleAt 5) calmEnv] s ∧ ∃! i, i ∈ s.instances ∧ c ∈ i.list :=
  ⟨_, _, Run.of_isSome, one_instance_of_run rfl Run.of_isSome mem_cons_self⟩

theorem evictSamples_hangs (hw : WF cfg s) (hma : cfg.mustAck = false) (hfull : samplesFull cfg s k = true)
    (hhead : s.changes.head? = some c)
    (hc : c.handle ≠ h) (env : Env) (fuel : Nat) : evictSamples cfg fuel env s (some h) k = none := by
  have hun : s.unlink (some h) c = s := by
    show (if _ then _ else s) = s
    rw [if_neg]
    intro hany
    obtain ⟨d, hd, hu⟩ := any_uid.1 hany
    obtain ⟨hdc, hdm⟩ := listOf_mine hw hd
    exact hc (hw.eq_of_uid hdc (mem_of_head? hhead) hu ▸ hdm h rfl)
  unfold evictSamples
  rw [if_pos hfull]
  apply DoWhile.doWhile_stuck
  · intro k
    rw [hhead, map_some]
    unfold hcRemoveI
    rw [hma, hun]
    rfl
  · simpa using samplesFull_length hfull

theorem hcAddInst_none (hw : WF cfg s) (hmu : cfg.multiInst = true) (hcw : cfg.writer = true)
    (hma : cfg.mustAck = false) (hi : s.inst? h = some i) (hk : d.kind = .alive)
    (hdepth : depthFull cfg s (some h) .alive = false) (hfull : samplesFull cfg s .alive = true)
    (hhead : s.changes.head? = some c) (hc : c.handle ≠ h) (env : Env) (fuel : Nat) :
    hcAddInst cfg fuel env s h d = none := by
  have hw1 : WF cfg { s with nextUid := s.nextUid + 1 } := hw.still .uid
  have hi1 : ({ s with nextUid := s.nextUid + 1 } : State).inst? h = some i := hi
  have hd1 : depthFull cfg { s with nextUid := s.nextUid + 1 } (some h) .alive = false := hdepth
  unfold hcAddInst
  rw [if_pos hmu, hi1]
  unfold hcAdd
  dsimp only
  rw [if_pos hcw, if_pos hcw]
  dsimp only
  rw [if_neg fun hn => hn.2.1 hk, (inst?_mem hi).2]
  unfold hcAddChange evictDepth
  rw [hk, hd1, if_neg Bool.false_ne_true, bind_some, evictSamples_hangs hw1 hma hfull hhead hc env fuel]
  rfl

/-- Two instances share a limit of one sample: the sample of the first one makes the second one's `hc_add` hang. -/
theorem hcAddInst_hangs : qtHistoryValid oneSample = true ∧ qtResourceLimitsValid oneSample = true ∧
    ∃ es s, Run (step (hcNew oneSample true false true false) 1) (fun _ _ => True) State.init es s ∧
      ∀ fuel, hcAddInst (hcNew oneSample true false true false) fuel calmEnv s 2 (sampleAt 7) = none := by
  have hrun : Run (step (hcNew oneSample true false true false) 1) (fun _ _ => True) State.init
    [.register 1 true, .register 2 true, .add 1 (sampleAt 5) calmEnv] _ := Run.of_isSome
  exact ⟨by decide, by decide, _, _, hrun, fun fuel => hcAddInst_none (wf_of_run hrun) rfl rfl rfl rfl rfl (by decide)
    (by decide) rfl (by decide) calmEnv fuel⟩

end Qeo.Cache
