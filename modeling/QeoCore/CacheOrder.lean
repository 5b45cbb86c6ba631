import QeoCore.CacheMoves
/-!
# CacheOrder — are the lists in the order of the source timestamps?

`ccref_add` compares with `!FTIME_LT (new, tail)`, which the macro turns into `(!new) < tail`: for the times that occur
the change goes to the tail.
-/
namespace Qeo.Cache

open List Trace

variable {cfg : Config} {s : State}

def ByTime (l : List Change) : Prop := l.Pairwise fun c d => c.time ≤ d.time

instance (l : List Change) : Decidable (ByTime l) := by
  unfold ByTime
  infer_instance

def InTime (s : State) : Prop := ByTime s.changes ∧ ∀ i ∈ s.instances, ByTime i.list

instance (s : State) : Decidable (InTime s) := by
  unfold InTime
  infer_instance

/-- A change of time `t` is the newest of the list and goes to its tail, or the oldest and goes to its head; where it
goes does not matter next to changes of the same time. -/
def Fits (t : Int) (l : List Change) : Prop :=
  (∀ d ∈ l, d.time ≤ t ∧ (notFtimeLt t d.time = true ∨ d.time = t)) ∨
    ∀ d ∈ l, t ≤ d.time ∧ (notFtimeLt t d.time = false ∨ d.time = t)

instance (t : Int) (l : List Change) : Decidable (Fits t l) := by
  unfold Fits
  infer_instance

theorem Fits.subset (h : Fits t l) (hl : ∀ d ∈ l', d ∈ l) : Fits t l' := by
  rcases h with h | h
  · exact .inl fun d hd => h d (hl d hd)
  · exact .inr fun d hd => h d (hl d hd)

theorem notFtimeLt_mono (h : notFtimeLt t u = true) (huv : u ≤ v) : notFtimeLt t v = true := by
  unfold notFtimeLt at h ⊢
  simp only [decide_eq_true_eq] at h ⊢
  omega

theorem byTime_ccrefAdd (hl : ByTime l) (hf : Fits c.time l) : ByTime (ccrefAdd true l c) := by
  have htail : (∀ d ∈ l, d.time ≤ c.time) → ByTime (l ++ [c]) := by
    intro h
    refine pairwise_append.2 ⟨hl, pairwise_singleton _ _, fun d hd e he => ?_⟩
    rw [mem_singleton.1 he]
    exact h d hd
  have hhead : (∀ d ∈ l, c.time ≤ d.time) → ByTime (c :: l) := fun h => pairwise_cons.2 ⟨h, hl⟩
  unfold ccrefAdd
  cases hlast : l.getLast? with
  | none => exact pairwise_singleton _ _
  | some tail =>
    have hmem : tail ∈ l := mem_of_getLast? hlast
    have hle : ∀ d ∈ l, d.time ≤ tail.time := by
      intro d hd
      rw [getLast?_eq_some_iff] at hlast
      obtain ⟨l', rfl⟩ := hlast
      rcases mem_append.1 hd with hd | hd
      · exact (pairwise_append.1 hl).2.2 d hd tail (mem_singleton_self _)
      · exact Int.le_of_eq (congrArg Change.time (mem_singleton.1 hd))
    dsimp only
    rcases hf with hf | hf
    · split
      · exact htail fun d hd => (hf d hd).1
      -- It goes to the head: then the tail, and with it every cached change, has its time.
      rename_i hn
      have hn : notFtimeLt c.time tail.time = false := by simpa using hn
      apply hhead
      intro d hd
      rcases (hf d hd).2 with hd' | hd'
      · exact absurd (notFtimeLt_mono hd' (hle d hd)) (by rw [hn]; decide)
      · exact Int.le_of_eq hd'.symm
    split
    · rename_i hp
      apply htail
      intro d hd
      rcases (hf tail hmem).2 with h | h
      · exact absurd hp (by rw [h]; decide)
      · exact h ▸ hle d hd
    · exact hhead fun d hd => (hf d hd).1

theorem fits_ccrefAdd (hf : Fits c.time l) : Fits c.time (ccrefAdd b l c) := by
  refine hf.imp (fun hf d hd => ?_) fun hf d hd => ?_
  all_goals
    rcases mem_ccrefAdd.1 hd with rfl | hd
    · exact ⟨Int.le_refl _, .inr rfl⟩
    · exact hf d hd

/-- Can the change still be there when the event brings in its own?  In a cache of depth 1 a sample comes in after those
of its instance have left. -/
def Survives (cfg : Config) : Event → Change → Prop
  | .add h d _, c => cfg.maxDepth = 1 → d.kind = .alive → c.kind = .alive → cfg.multiInst = true ∧ c.handle ≠ h
  | _, _ => True

instance (cfg : Config) (e : Event) (c : Change) : Decidable (Survives cfg e c) := by
  unfold Survives
  split <;> infer_instance

def survivors (cfg : Config) (s : State) (e : Event) : List Change := s.changes.filter (Survives cfg e ·)

theorem mem_survivors : c ∈ survivors cfg s e ↔ c ∈ s.changes ∧ Survives cfg e c := by
  unfold survivors
  rw [mem_filter, decide_eq_true_iff]

theorem mem_survivors_of_ready (hw : WF cfg s) (hr : Ready cfg s ip c) (hb : e.Brings cfg ip c) (hd : d ∈ s.changes) :
    d ∈ survivors cfg s e := by
  refine mem_survivors.2 ⟨hd, ?_⟩
  cases e with
  | add h a env =>
    intro hone ha halive
    obtain ⟨rfl, -, hk⟩ := hb
    have hnone := (hr.room (hk ha)).depth
    rw [hone, Nat.lt_one_iff, nData, countP_eq_zero] at hnone
    have hout : d ∉ s.listOf (cfg.ip h) := fun hin => hnone d hin (by rw [halive]; rfl)
    unfold Config.ip at hout
    split at hout
    · rename_i hm
      refine ⟨hm, fun hh => hout ?_⟩
      obtain ⟨i, hi, hih⟩ := hw.owned hm d hd
      rw [← hh, ← hih, listOf_eq hw.handles hi]
      exact (hw.mirror i hi d).2 ⟨hd, hih.symm⟩
    · exact absurd hd hout
  | _ => trivial

def FitsEvent (cfg : Config) (s : State) (e : Event) : Prop := ∀ t ∈ e.time, Fits t (survivors cfg s e)

instance (cfg : Config) (s : State) (e : Event) : Decidable (FitsEvent cfg s e) := by
  unfold FitsEvent
  infer_instance

theorem InTime.fewer (hs : InTime s) (h : Fewer s t) : InTime t := by
  refine ⟨hs.1.sublist h.changes, fun j hj => ?_⟩
  rcases h.instances j hj with h0 | ⟨i, hi, -, hl⟩
  · rw [h0]
    exact List.Pairwise.nil
  · exact (hs.2 i hi).sublist hl

theorem InTime.insert (hw : WF cfg s) (hc : cfg.srcTime = true) (hs : InTime s) {ip : Option Nat} {c : Change}
    (hf : Fits c.time s.changes) : InTime (insertChange cfg s ip c) := by
  constructor
  · rw [insertChange_changes, hc]
    exact byTime_ccrefAdd hs.1 hf
  intro j hj
  obtain ⟨i, hi, rfl⟩ := mem_insertChange.1 hj
  split
  · rw [hc]
    exact byTime_ccrefAdd (hs.2 i hi) (hf.subset fun d hd => ((hw.mirror i hi d).1 hd).1)
  · exact hs.2 i hi

structure Orderly (cfg : Config) (e : Event) (s : State) : Prop where
  wf : WF cfg s
  inTime : InTime s
  fits : FitsEvent cfg s e

theorem FitsEvent.fewer (h : FitsEvent cfg s e) (hs : ∀ d ∈ s'.changes, d ∈ s.changes) : FitsEvent cfg s' e := by
  refine fun t ht => (h t ht).subset fun d hd => ?_
  obtain ⟨hd, hsurv⟩ := mem_survivors.1 hd
  exact mem_survivors.2 ⟨hs d hd, hsurv⟩

theorem Orderly.stills (hs : Orderly cfg e s) (h : Stills cfg s s') : Orderly cfg e s' :=
  ⟨hs.wf.stills h, hs.inTime.fewer h.fewer, hs.fits.fewer fun _ hd => h.fewer.changes.subset hd⟩

theorem Orderly.grown (hc : cfg.srcTime = true) (hs : Orderly cfg e s) (h : Grown cfg (e.Brings cfg) s s') :
    Orderly cfg e s' := by
  cases h with
  | still h => exact hs.stills h
  | @insert u ip c h hr hb h' =>
    have hu := hs.stills h
    have hf : Fits c.time u.changes :=
      (hu.fits c.time hb.time).subset fun _ hd => mem_survivors_of_ready hu.wf hr hb hd
    have hin : Fits c.time (insertChange cfg u ip c).changes := by
      rw [insertChange_changes]
      exact fits_ccrefAdd hf
    refine Orderly.stills ⟨hu.wf.insert hr, hu.inTime.insert hu.wf hc hf, fun v hv => ?_⟩ h'
    obtain rfl : c.time = v := Option.some.inj (hb.time.symm.trans hv)
    exact hin.subset fun d hd => (mem_survivors.1 hd).1

theorem inTime_step (hc : cfg.srcTime = true) (hw : WF cfg s) (hs : InTime s)
    (hf : FitsEvent cfg s e) (h : step cfg fuel s e = some s') : InTime s' := by
  have ho : Orderly cfg e s := ⟨hw, hs, hf⟩
  exact (step_induction hw ho h fun _ hu hg => hu.grown hc hg).2.inTime

/-- **A cache in source timestamp order keeps its lists sorted as long as every change it is given fits.** -/
theorem inTime_of_run (cfg : Config) (hc : cfg.srcTime = true) (fuel : Nat) {es : List Event} {s : State}
    (h : Run (step cfg fuel) (FitsEvent cfg) State.init es s) : InTime s :=
  (holds_of_run ⟨.nil, nofun⟩ (fun hw hs hf hstep => inTime_step hc hw hs hf hstep) h).2

def byTimeReader : Config :=
  hcNew { Qos.keepLast with depth := 5, srcTime := true, instOrder := true } false false true false

def sampleAt (t : Int) : Sample := ⟨.alive, 1, t, 4, true⟩

def calmEnv : Env := ⟨false, 0, fun _ => ⟨[], false⟩, fun _ => ⟨[], false⟩, fun _ => 0, fun _ _ => false⟩

theorem inTime_two_samples :
    (exec (step byTimeReader 1) (FitsEvent byTimeReader) State.init
      [.register 1 false, .add 1 (sampleAt 5) calmEnv, .add 1 (sampleAt 7) calmEnv]).any (fun s => InTime s) = true :=
  have h : (exec (step byTimeReader 1) (FitsEvent byTimeReader) State.init
      [.register 1 false, .add 1 (sampleAt 5) calmEnv, .add 1 (sampleAt 7) calmEnv]).isSome := by decide
  (Option.any_eq_true _ _).2 ⟨_, Option.eq_some_of_isSome h,
    decide_eq_true (inTime_of_run byTimeReader rfl 1 (Run.of_isSome h))⟩

def lastByTime : Config := hcNew { Qos.keepLast with srcTime := true } false false true false

-- In a cache of depth 1 the samples of one instance may come in any order.
example : (exec (step lastByTime 1) (FitsEvent lastByTime) State.init
    [.register 1 false, .add 1 (sampleAt 7) calmEnv, .add 1 (sampleAt 5) calmEnv]).isSome := by decide

/-- Two samples that arrive newest first stay that way. -/
theorem not_inTime_of_run : ∃ es s, byTimeReader.srcTime = true ∧
    Run (step byTimeReader 1) (fun _ _ => True) State.init es s ∧ ¬ InTime s :=
  ⟨[.register 1 false, .add 1 (sampleAt 7) calmEnv, .add 1 (sampleAt 5) calmEnv], _, rfl,
    Run.of_isSome, by decide⟩

/-! ## Sequence numbers of a writer cache

`hc_seqnr_info` and `hc_acknowledged` take the head and the tail of a list for the smallest and the largest number.
That is right as long as every change is added at the tail.
-/

variable {cfg : Config} {l : List Change} {c : Change} {s : State}

def BySeqnr (l : List Change) : Prop := l.Pairwise fun c d => c.seqnr < d.seqnr

structure Numbered (s : State) : Prop where
  changes : BySeqnr s.changes
  last : ∀ c ∈ s.changes, c.seqnr ≤ s.lastSeqnr
  lists : ∀ i ∈ s.instances, BySeqnr i.list

def InRange (s : State) : Prop := ∀ c ∈ s.changes, (hcSeqnrInfo s).1 ≤ c.seqnr ∧ c.seqnr ≤ (hcSeqnrInfo s).2

def Acknowledges (cfg : Config) (s : State) (ip : Option Nat) : Prop :=
  ∀ c ∈ s.listOf ip, ∀ u, (hcAcknowledged cfg s ip c.seqnr).wack u =
    if u = c.uid then decWack (s.wack c.uid) else s.wack u

def SeqnrsRight (cfg : Config) (s : State) : Prop := InRange s ∧ ∀ h, Acknowledges cfg s (cfg.ip h)

theorem BySeqnr.le_of_mem (hl : BySeqnr l) (hf : l.head? = some first)
    (hla : l.getLast? = some last) (hc : c ∈ l) : first.seqnr ≤ c.seqnr ∧ c.seqnr ≤ last.seqnr := by
  constructor
  · cases l with
    | nil => cases hc
    | cons d ds =>
      obtain rfl : d = first := Option.some.inj hf
      rcases mem_cons.1 hc with rfl | hc
      · exact Nat.le_refl _
      · exact Nat.le_of_lt ((pairwise_cons.1 hl).1 c hc)
  · rw [getLast?_eq_some_iff] at hla
    obtain ⟨l', rfl⟩ := hla
    rcases mem_append.1 hc with hc | hc
    · exact Nat.le_of_lt ((pairwise_append.1 hl).2.2 c hc last (mem_singleton_self _))
    · exact Nat.le_of_eq (congrArg Change.seqnr (mem_singleton.1 hc))

theorem BySeqnr.eq_of_seqnr (hl : BySeqnr l) (hc : c ∈ l) (hd : d ∈ l) (h : c.seqnr = d.seqnr) : c = d := by
  have hn : (l.map fun c => c.seqnr).Nodup := (pairwise_map.2 hl).imp Nat.ne_of_lt
  exact inj_on_of_nodup_map hn hc hd h

theorem ackTarget_eq (hl : BySeqnr l) (hc : c ∈ l) : ackTarget l c.seqnr = some c := by
  unfold ackTarget
  cases hf : l.head? with
  | none =>
    rw [head?_eq_none_iff.1 hf] at hc
    cases hc
  | some first =>
    cases hla : l.getLast? with
    | none =>
      rw [getLast?_eq_none_iff.1 hla] at hc
      cases hc
    | some last =>
      obtain ⟨hlo, hhi⟩ := hl.le_of_mem hf hla hc
      dsimp only
      split
      · rename_i hlen
        obtain ⟨d, rfl⟩ := length_eq_one_iff.1 hlen
        obtain rfl := mem_singleton.1 hc
        obtain rfl : c = first := Option.some.inj hf
        rw [if_pos rfl]
      · rw [if_neg (by omega)]
        cases hfind : l.find? fun d => d.seqnr = c.seqnr with
        | none => exact absurd (decide_eq_true rfl) (find?_eq_none.1 hfind c hc)
        | some d =>
          have hd : d.seqnr = c.seqnr := by simpa using find?_some hfind
          rw [hl.eq_of_seqnr (mem_of_find?_eq_some hfind) hc hd]

theorem wack_unlink (s : State) (ip : Option Nat) (c : Change) : (s.unlink ip c).wack = s.wack := by
  unfold State.unlink
  split
  · rfl
  · split <;> rfl

theorem wack_sweep (s : State) (ip : Option Nat) : (s.sweep ip).wack = s.wack := by
  unfold State.sweep hcFreeInstance
  grind

theorem wack_hcAcknowledged (h : ackTarget (s.listOf ip) sn = some c) :
    (hcAcknowledged cfg s ip sn).wack = Function.update s.wack c.uid (decWack (s.wack c.uid)) := by
  unfold hcAcknowledged
  rw [h]
  dsimp only
  split
  · rfl
  rw [wack_sweep]
  split
  · rw [wack_unlink]
  · rfl

theorem Numbered.inRange (hs : Numbered s) : InRange s := by
  intro c hc
  unfold hcSeqnrInfo
  cases hf : s.changes.head? with
  | none =>
    rw [head?_eq_none_iff.1 hf] at hc
    cases hc
  | some first =>
    cases hla : s.changes.getLast? with
    | none =>
      rw [getLast?_eq_none_iff.1 hla] at hc
      cases hc
    | some last => exact ⟨(hs.changes.le_of_mem hf hla hc).1, hs.last c hc⟩

theorem Numbered.bySeqnr (hs : Numbered s) (ip : Option Nat) : BySeqnr (s.listOf ip) := by
  cases ip with
  | none => exact hs.changes
  | some h =>
    cases hi : s.inst? h with
    | none =>
      rw [listOf_none hi]
      exact List.Pairwise.nil
    | some i =>
      rw [listOf_some hi]
      exact hs.lists i (inst?_mem hi).1

theorem Numbered.right (hs : Numbered s) (cfg : Config) : SeqnrsRight cfg s := by
  refine ⟨hs.inRange, fun h c hc u => ?_⟩
  rw [wack_hcAcknowledged (ackTarget_eq (hs.bySeqnr _) hc), Function.update_apply]

/-- The condition on an event: the change it may add goes to the tail whichever changes are still there. -/
def ToTail (cfg : Config) (s : State) (e : Event) : Prop :=
  cfg.srcTime = true → ∀ t ∈ e.time, ∀ d ∈ survivors cfg s e, notFtimeLt t d.time = true

instance (cfg : Config) (s : State) (e : Event) : Decidable (ToTail cfg s e) := by
  unfold ToTail
  infer_instance

theorem ccrefAdd_toTail (h : b = true → ∀ d ∈ l, notFtimeLt c.time d.time = true) : ccrefAdd b l c = l ++ [c] := by
  unfold ccrefAdd
  cases hla : l.getLast? with
  | none =>
    rw [getLast?_eq_none_iff.1 hla]
    rfl
  | some last =>
    dsimp only
    rw [if_pos]
    cases hb : b with
    | false => rfl
    | true => exact h hb last (mem_of_getLast? hla)

theorem Numbered.fewer (hs : Numbered s) (h : Fewer s t) : Numbered t := by
  refine ⟨hs.changes.sublist h.changes, fun c hc => ?_, fun j hj => ?_⟩
  · rw [h.lastSeqnr]
    exact hs.last c (h.changes.subset hc)
  rcases h.instances j hj with h0 | ⟨i, hi, -, hl⟩
  · rw [h0]
    exact List.Pairwise.nil
  · exact (hs.lists i hi).sublist hl

theorem bySeqnr_append (hl : BySeqnr l) (h : ∀ d ∈ l, d.seqnr < c.seqnr) : BySeqnr (l ++ [c]) := by
  refine pairwise_append.2 ⟨hl, pairwise_singleton _ _, fun d hd e he => ?_⟩
  rw [mem_singleton.1 he]
  exact h d hd

theorem Numbered.insert (hw : WF cfg s) (hcw : cfg.writer = true) (hs : Numbered s) {ip : Option Nat}
    (hr : Ready cfg s ip c) (ht : cfg.srcTime = true → ∀ d ∈ s.changes, notFtimeLt c.time d.time = true) :
    Numbered (insertChange cfg s ip c) := by
  have hlt : ∀ d ∈ s.changes, d.seqnr < c.seqnr := by
    intro d hd
    rw [hr.seqnr hcw]
    exact Nat.lt_succ_of_le (hs.last d hd)
  have hlast : (insertChange cfg s ip c).lastSeqnr = s.lastSeqnr + 1 := by
    cases ip <;> exact if_pos hcw
  refine ⟨?_, fun d hd => ?_, fun j hj => ?_⟩
  · rw [insertChange_changes, ccrefAdd_toTail ht]
    exact bySeqnr_append hs.changes hlt
  · rw [insertChange_changes, mem_ccrefAdd] at hd
    rw [hlast, ← hr.seqnr hcw]
    rcases hd with rfl | hd
    · exact Nat.le_refl _
    · exact Nat.le_of_lt (hlt d hd)
  · obtain ⟨i, hi, rfl⟩ := mem_insertChange.1 hj
    have hin : ∀ d ∈ i.list, d ∈ s.changes := fun d hd => ((hw.mirror i hi d).1 hd).1
    split
    · rw [ccrefAdd_toTail fun hb d hd => ht hb d (hin d hd)]
      exact bySeqnr_append (hs.lists i hi) fun d hd => hlt d (hin d hd)
    · exact hs.lists i hi

theorem numbered_step (hcw : cfg.writer = true) (hw : WF cfg s)
    (hs : Numbered s) (ht : ToTail cfg s e) (h : step cfg fuel s e = some s') : Numbered s' := by
  rcases step_grown hw h with hg | ⟨hr, -⟩
  · cases hg with
    | still h => exact hs.fewer h.fewer
    | @insert u ip c h hr hb h' =>
      refine Numbered.fewer (Numbered.insert (hw.stills h) hcw (hs.fewer h.fewer) hr ?_) h'.fewer
      intro hsrc d hd
      obtain ⟨hd, hsurv⟩ := mem_survivors.1 (mem_survivors_of_ready (hw.stills h) hr hb hd)
      exact ht hsrc c.time hb.time d (mem_survivors.2 ⟨h.fewer.changes.subset hd, hsurv⟩)
  · rw [hcw] at hr
    cases hr

/-- **A writer cache whose changes are all added at the tail reports and acknowledges its sequence numbers
correctly.** -/
theorem seqnrsRight_of_run (cfg : Config) (hcw : cfg.writer = true) (fuel : Nat) {es : List Event} {s : State}
    (h : Run (step cfg fuel) (ToTail cfg) State.init es s) : SeqnrsRight cfg s := by
  have hn : WF cfg s ∧ Numbered s :=
    holds_of_run ⟨.nil, nofun, nofun⟩ (fun hw hs ht hstep => numbered_step hcw hw hs ht hstep) h
  exact hn.2.right cfg

def byTimeWriter : Config :=
  hcNew { Qos.keepLast with depth := 5, durability := true, srcTime := true, instOrder := true } true false true false

theorem seqnrsRight_two_samples : SeqnrsRight byTimeWriter
    ((exec (step byTimeWriter 1) (ToTail byTimeWriter) State.init
      [.register 1 true, .add 1 (sampleAt 5) calmEnv, .add 1 (sampleAt 7) calmEnv]).get (by decide)) :=
  seqnrsRight_of_run byTimeWriter rfl 1 (Run.of_isSome _)

/-- A sample of time 0 stays behind every later one: its sequence number is below the reported range, and its
acknowledgement is lost. -/
theorem not_seqnrsRight : ∃ es s c, byTimeWriter.writer = true ∧
    Run (step byTimeWriter 1) (fun _ _ => True) State.init es s ∧ c ∈ s.listOf (some 1) ∧ s.wack c.uid = 1 ∧
    ¬ (hcSeqnrInfo s).1 ≤ c.seqnr ∧ (hcAcknowledged byTimeWriter s (some 1) c.seqnr).wack c.uid = 1 :=
  ⟨[.observe true false, .register 1 true, .add 1 (sampleAt 0) { calmEnv with acks := 1 },
      .add 1 (sampleAt 5) { calmEnv with acks := 1 }], _, ⟨0, .alive, 1, 1, 0, 1, 0, 0, 4, true⟩, rfl,
    Run.of_isSome, by decide, by decide, by decide, by decide⟩

end Qeo.Cache
