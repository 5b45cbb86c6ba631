import QeoCore.CacheLimits
/-!
# CacheLifespan — samples that have outlived their lifespan (`hc_handle_xqos`)

The sweep passes by the samples whose writer has no lifespan, and ends at the first one that has not expired or has to
be acknowledged.  Times are 64 bits, in units of 2^-32 s; the period of a writer cache comes from timer ticks of 10 ms.
-/
namespace Qeo.Cache

open List Trace

structure Lifespan where
  secs : Nat
  nanos : Nat

/-- `FTIME_SET`. -/
def Lifespan.ftime (d : Lifespan) : Int := ((d.secs <<< 32 ||| (d.nanos <<< 32) / 10 ^ 9 : Nat) : Int).bmod (2 ^ 64)

/-- Either half of the infinite duration will do (`lifespan_used`). -/
def Lifespan.used (d : Lifespan) : Bool := d.secs != 2 ^ 31 - 1 && d.nanos != 2 ^ 31 - 1

def duration2ticks (d : Lifespan) : Nat :=
  if d.secs = 0 ∧ d.nanos = 0 then 0
  else if d.secs = 2 ^ 32 - 1 then 2 ^ 64 - 1
  else max 1 ((d.secs * 100 + d.nanos / 10 ^ 7) % 2 ^ 32)

/-- `FTIME_SETT`, in which a tick is a tenth of 2^64 instead of a hundredth of 2^32. -/
def ftimeSett (ticks : Nat) : Int :=
  ((ticks / 100 <<< 32 ||| ticks % 100 * ((2 ^ 64 - 1) / 10) % 2 ^ 64 : Nat) : Int).bmod (2 ^ 64)

/-- The time, the lifespan of the writer of a writer cache, and those of remote writers; one that is gone has none. -/
structure Lifespans where
  now : Int
  own : Lifespan
  remote : Nat → Option Lifespan

/-- What is added to the time of a sample.  The period that is kept from one sample to the next is always that of the
writer; that of a writer cache comes from its guard, as `unsigned`. -/
def Lifespans.period (e : Lifespans) (cfg : Config) (c : Change) : Option Int :=
  if cfg.writer then some (ftimeSett (duration2ticks e.own % 2 ^ 32))
  else ((e.remote c.writer).filter Lifespan.used).map Lifespan.ftime

/-- Is the sample removed, or the end of the sweep? -/
def Lifespans.verdict (e : Lifespans) (cfg : Config) (wack : Nat → Nat) (c : Change) : Option Bool :=
  (e.period cfg c).map fun d => decide ((c.time + d).bmod (2 ^ 64) ≤ e.now) && !(cfg.mustAck && wack c.uid != 0)

/-- Its lifespan is over, and it need not be kept until it is acknowledged. -/
def Expired (e : Lifespans) (cfg : Config) (wack : Nat → Nat) (c : Change) : Prop :=
  ∃ d ∈ if cfg.writer then some e.own else e.remote c.writer, (d.secs ≠ 2 ^ 31 - 1 ∨ d.nanos ≠ 2 ^ 31 - 1) ∧
    c.time + (d.secs * 2 ^ 32 + d.nanos * 2 ^ 32 / 10 ^ 9) ≤ e.now ∧ ¬(cfg.mustAck = true ∧ wack c.uid ≠ 0)

def lifespanLoop (cfg : Config) (e : Lifespans) (ip : Option Nat) : List Change → State → State
  | [], s => s
  | c :: l, s =>
    match e.verdict cfg s.wack c with
    | none => lifespanLoop cfg e ip l s
    | some false => s
    | some true =>
      let s1 := s.unlink ip c
      match ip.bind s1.inst? with
      | some i =>
        if i.list.isEmpty && cfg.writer && i.kind.unregistered then hcFreeInstance s1 i.handle
        else lifespanLoop cfg e ip l s1
      | none => lifespanLoop cfg e ip l s1

def hcInstCheckLifespan (cfg : Config) (e : Lifespans) (s : State) (h : Nat) : State :=
  match s.inst? h with
  | none => s
  | some i => if cfg.writer || !i.writers.isEmpty then lifespanLoop cfg e (some h) i.list s else s

def hcHandleLifespan (cfg : Config) (e : Lifespans) (s : State) : State :=
  if cfg.multiInst then (s.instances.map fun i => i.handle).foldl (hcInstCheckLifespan cfg e) s
  else lifespanLoop cfg e none s.changes s

def swept (verdict : Change → Option Bool) : List Change → List Change
  | [] => []
  | c :: l =>
    match verdict c with
    | none => swept verdict l
    | some true => c :: swept verdict l
    | some false => []

theorem mem_swept {verdict : Change → Option Bool} : ∀ {l : List Change}, c ∈ swept verdict l ↔
    verdict c = some true ∧ ∃ pre post, l = pre ++ c :: post ∧ ∀ d ∈ pre, verdict d ≠ some false
  | [] => by simp [swept]
  | d :: l => by
    have hrest : verdict d ≠ some false → ((∃ pre post, d :: l = pre ++ c :: post ∧ ∀ d ∈ pre, verdict d ≠ some false) ↔
        d = c ∨ ∃ pre post, l = pre ++ c :: post ∧ ∀ d ∈ pre, verdict d ≠ some false) := by
      intro hd
      constructor
      · rintro ⟨_ | ⟨x, pre⟩, post, heq, hpre⟩
        · exact .inl (cons.inj heq).1
        · obtain ⟨rfl, rfl⟩ := cons.inj heq
          exact .inr ⟨pre, post, rfl, (forall_mem_cons.1 hpre).2⟩
      · rintro (rfl | ⟨pre, post, rfl, hpre⟩)
        · exact ⟨[], l, rfl, nofun⟩
        · exact ⟨d :: pre, post, rfl, forall_mem_cons.2 ⟨hd, hpre⟩⟩
    rw [swept]
    cases hv : verdict d with
    | none =>
      rw [hrest (by rw [hv]; nofun), mem_swept]
      refine and_congr_right fun hc => (or_iff_right ?_).symm
      rintro rfl
      rw [hv] at hc
      cases hc
    | some b =>
      cases b with
      | true =>
        rw [hrest (by rw [hv]; nofun), mem_cons, mem_swept, and_or_left]
        refine or_congr ⟨?_, fun h => h.2.symm⟩ Iff.rfl
        rintro rfl
        exact ⟨hv, rfl⟩
      | false =>
        refine iff_of_false nofun ?_
        rintro ⟨hc, _ | ⟨x, pre⟩, post, heq, hpre⟩
        · rw [← (cons.inj heq).1, hv] at hc
          cases hc
        · exact hpre x mem_cons_self ((cons.inj heq).1 ▸ hv)

variable {cfg : Config} {e : Lifespans} {s t : State}

theorem inst?_modify_of_ne {f : Instance → Instance} (hf : ∀ i, (f i).handle = i.handle) (hne : h' ≠ h) :
    (s.modify h f).inst? h' = s.inst? h' := by
  unfold State.modify State.inst?
  rw [find?_map]
  have hsame : ((fun i : Instance => decide (i.handle = h')) ∘ fun i => if i.handle = h then f i else i) =
      fun i => decide (i.handle = h') := by
    funext i
    dsimp only [Function.comp]
    split
    · rw [hf]
    · rfl
  rw [hsame]
  cases hi : s.instances.find? fun i => decide (i.handle = h') with
  | none => rfl
  | some i =>
    have hh : i.handle = h' := by simpa using find?_some hi
    rw [Option.map_some, if_neg (hh ▸ hne)]

structure Swept (cfg : Config) (ip : Option Nat) (s t : State) (gone : List Change) : Prop where
  wf : WF cfg t
  changes : ∀ c, c ∈ t.changes ↔ c ∈ s.changes ∧ c ∉ gone
  wack : t.wack = s.wack
  others : ∀ h, ip ≠ some h → t.inst? h = s.inst? h

theorem Swept.refl (ip : Option Nat) (hs : WF cfg s) : Swept cfg ip s s [] := ⟨hs, by simp, rfl, fun _ _ => rfl⟩

theorem Swept.trans (h : Swept cfg ip s t gone) (h' : Swept cfg ip t u gone') : Swept cfg ip s u (gone ++ gone') :=
  ⟨h'.wf, fun c => by rw [h'.changes, h.changes, mem_append, not_or, and_assoc], h'.wack.trans h.wack,
    fun x hx => (h'.others x hx).trans (h.others x hx)⟩

theorem Swept.more (h : Swept cfg ip s t gone) {m : List Change} (hm : ∀ c ∈ m, c ∉ t.changes) :
    Swept cfg ip s t (gone ++ m) :=
  h.trans ⟨h.wf, fun c => (and_iff_left_of_imp fun hc hg => hm c hg hc).symm, rfl, fun _ _ => rfl⟩

def Linked (s : State) (ip : Option Nat) (c : Change) : Prop := c ∈ s.listOf ip ∨ ∀ d ∈ s.changes, d.uid ≠ c.uid

theorem unlink_swept (hs : WF cfg s) (hip : ip.isSome = cfg.multiInst) (hc : Linked s ip c) :
    Swept cfg ip s (s.unlink ip c) [c] ∧ ∀ d, Linked s ip d → Linked (s.unlink ip c) ip d := by
  have hwf := hs.unlink hip c
  have hdrop : ∀ d, d ∈ dropRef c.uid s.changes ↔ d ∈ s.changes ∧ d ∉ [c] := by
    intro d
    rw [mem_dropRef, mem_singleton]
    refine and_congr_right fun hd => not_congr ⟨fun hu => ?_, fun h => h ▸ rfl⟩
    exact hc.elim (fun h => hs.eq_of_uid hd (listOf_mine hs h).1 hu) fun h => absurd hu (h d hd)
  have hlinked : ∀ {t : State}, t.changes = dropRef c.uid s.changes → t.listOf ip = dropRef c.uid (s.listOf ip) →
      ∀ d, Linked s ip d → Linked t ip d := by
    intro t hch hlist d hd
    by_cases hu : d.uid = c.uid
    · exact .inr fun x hx => hu ▸ (mem_dropRef.1 (hch ▸ hx)).2
    · exact hd.imp (fun h => hlist ▸ mem_dropRef.2 ⟨h, hu⟩) fun h x hx => h x (mem_dropRef.1 (hch ▸ hx)).1
  cases ip with
  | none => exact ⟨⟨hwf, hdrop, rfl, fun _ _ => rfl⟩, hlinked rfl rfl⟩
  | some h =>
    by_cases hany : (s.listOf (some h)).any (fun d => d.uid = c.uid) = true
    · have heq : s.unlink (some h) c = { s.modify h (fun i => { i with list := dropRef c.uid i.list }) with
          changes := dropRef c.uid s.changes } := if_pos hany
      rw [heq] at hwf ⊢
      refine ⟨⟨hwf, hdrop, rfl, fun h' hne => inst?_modify_of_ne (fun _ => rfl) fun hh => hne (hh ▸ rfl)⟩,
        hlinked rfl ?_⟩
      cases hi : s.inst? h with
      | none =>
        rw [listOf_none hi] at hany
        cases hany
      | some i =>
        obtain ⟨hmem, hh⟩ := inst?_mem hi
        rw [listOf_some hi]
        exact listOf_some (hh ▸ inst?_eq hwf.handles (mem_modify.2 ⟨i, hmem, if_pos hh⟩))
    · -- it is not in the list, so it is not in the cache either
      have heq : s.unlink (some h) c = s := if_neg hany
      rw [heq]
      refine ⟨(Swept.refl _ hs).more (m := [c]) fun d hd hmem => ?_, fun _ => id⟩
      obtain rfl := mem_singleton.1 hd
      exact hc.elim (fun h => hany (any_uid.2 ⟨d, h, rfl⟩)) fun h => h d hmem rfl

theorem free_swept (hs : WF cfg s) (hi : s.inst? h = some i) (hl : i.list = []) :
    Swept cfg (some h) s (hcFreeInstance s h) [] := by
  have heq : hcFreeInstance s h = { s with
      instances := s.instances.filter (fun j => j.handle ≠ h)
      changes := s.changes.filter fun c => !i.list.any fun d => d.uid = c.uid } := by
    unfold hcFreeInstance
    rw [hi]
  refine ⟨hs.free h, fun c => by simp [heq, hl], by rw [heq], fun h' hne => ?_⟩
  rw [heq]
  unfold State.inst?
  rw [find?_filter]
  congr 1
  funext j
  by_cases hj : j.handle = h'
  · have : j.handle ≠ h := fun hh => hne (by rw [← hh, hj])
    simp [hj, hj ▸ this]
  · simp [hj]

/-- **The loop over the rest of a list removes what the sweep of that rest removes.** -/
theorem lifespanLoop_swept {ip : Option Nat} (hip : ip.isSome = cfg.multiInst) : ∀ (l : List Change) {s : State},
    WF cfg s → (∀ c ∈ l, Linked s ip c) →
    Swept cfg ip s (lifespanLoop cfg e ip l s) (swept (e.verdict cfg s.wack) l)
  | [], s, hs, _ => .refl ip hs
  | c :: l, s, hs, hl => by
    obtain ⟨hc, hl⟩ := forall_mem_cons.1 hl
    rw [lifespanLoop, swept]
    cases hv : e.verdict cfg s.wack c with
    | none => exact lifespanLoop_swept hip l hs hl
    | some b =>
      cases b with
      | false => exact .refl ip hs
      | true =>
        obtain ⟨hu, hlinked⟩ := unlink_swept hs hip hc
        have hloop := hu.trans (lifespanLoop_swept hip l hu.wf fun d hd => hlinked d (hl d hd))
        rw [hu.wack] at hloop
        dsimp only
        split
        · rename_i i hi
          split
          · -- the instance is empty: nothing is left of the list
            rename_i hempty
            obtain ⟨h, rfl, hi⟩ := Option.bind_eq_some_iff.1 hi
            have hnil : i.list = [] := by simp at hempty; exact hempty.1.1
            have hfree := hu.trans (free_swept hu.wf hi hnil)
            rw [(inst?_mem hi).2]
            refine hfree.more (m := swept _ l) fun d hd hmem => ?_
            obtain ⟨_, pre, post, rfl, _⟩ := mem_swept.1 hd
            rcases hlinked d (hl d (by simp)) with hlist | hgone
            · rw [listOf_some hi, hnil] at hlist
              cases hlist
            · exact hgone d (((free_swept hu.wf hi hnil).changes d).1 hmem).1 rfl
          · exact hloop
        · exact hloop

def Visited (cfg : Config) (i : Instance) : Prop := cfg.writer = true ∨ i.writers ≠ []

theorem hcInstCheckLifespan_swept (hm : cfg.multiInst = true) (hs : WF cfg s) (h : Nat) :
    ∃ gone, Swept cfg (some h) s (hcInstCheckLifespan cfg e s h) gone ∧ ∀ c, c ∈ gone ↔
      ∃ i, s.inst? h = some i ∧ Visited cfg i ∧ c ∈ swept (e.verdict cfg s.wack) i.list := by
  unfold hcInstCheckLifespan
  cases hi : s.inst? h with
  | none => exact ⟨[], .refl _ hs, by simp⟩
  | some i =>
    dsimp only
    split
    · rename_i hv
      have hv : Visited cfg i := by simpa [Visited] using hv
      refine ⟨_, lifespanLoop_swept (show (some h).isSome = _ from hm.symm) i.list hs fun c hc =>
        .inl (listOf_some hi ▸ hc), fun c => ?_⟩
      simp [hv]
    · rename_i hv
      have hv : ¬ Visited cfg i := by simpa [Visited] using hv
      exact ⟨[], .refl _ hs, by simp [hv]⟩

theorem walk_swept (hm : cfg.multiInst = true) : ∀ (hs : List Nat) {s : State}, WF cfg s → hs.Nodup → ∀ c,
    (c ∈ (hs.foldl (hcInstCheckLifespan cfg e) s).changes ↔ c ∈ s.changes ∧ ¬ ∃ h ∈ hs, ∃ i, s.inst? h = some i ∧
      Visited cfg i ∧ c ∈ swept (e.verdict cfg s.wack) i.list)
  | [], _, _, _, c => by simp
  | h :: hs, s, hw, hnd, c => by
    rw [nodup_cons] at hnd
    obtain ⟨gone, hstep, hgone⟩ := hcInstCheckLifespan_swept (e := e) hm hw h
    rw [foldl_cons, walk_swept hm hs hstep.wf hnd.2, hstep.changes, hstep.wack, and_assoc]
    refine and_congr_right fun _ => ?_
    rw [hgone, ← not_or, exists_mem_cons_iff]
    refine not_congr (or_congr_right (exists_congr fun h' => and_congr_right fun hh => ?_))
    rw [hstep.others h' fun heq => hnd.1 (Option.some.inj heq ▸ hh)]

def InSwept (cfg : Config) (s : State) (l : List Change) : Prop :=
  if cfg.multiInst then ∃ i ∈ s.instances, Visited cfg i ∧ i.list = l else l = s.changes

theorem mem_hcHandleLifespan (hs : WF cfg s) (e : Lifespans) (c : Change) :
    c ∈ (hcHandleLifespan cfg e s).changes ↔
      c ∈ s.changes ∧ ¬ ∃ l, InSwept cfg s l ∧ c ∈ swept (e.verdict cfg s.wack) l := by
  unfold hcHandleLifespan InSwept
  split
  · rename_i hm
    rw [walk_swept hm _ hs hs.handles]
    refine and_congr_right fun _ => not_congr ⟨?_, ?_⟩
    · rintro ⟨h, _, i, hi, hv, hc⟩
      exact ⟨_, ⟨i, (inst?_mem hi).1, hv, rfl⟩, hc⟩
    · rintro ⟨_, ⟨i, hi, hv, rfl⟩, hc⟩
      exact ⟨_, mem_map_of_mem hi, i, inst?_eq hs.handles hi, hv, hc⟩
  · rename_i hm
    rw [(lifespanLoop_swept (show (none : Option Nat).isSome = _ by simpa using hm) s.changes hs fun c hc =>
      .inl hc).changes]
    simp

/-- **No expired sample stays exactly if each one is found expired and reached**: its list is swept, and no sample
before it ends the sweep. -/
theorem lifespan_kept_iff (hs : WF cfg s) (e : Lifespans) :
    (∀ c ∈ (hcHandleLifespan cfg e s).changes, ¬Expired e cfg s.wack c) ↔
      ∀ c ∈ s.changes, Expired e cfg s.wack c → e.verdict cfg s.wack c = some true ∧ ∃ l, InSwept cfg s l ∧ ∃ pre post,
        l = pre ++ c :: post ∧ ∀ d ∈ pre, e.verdict cfg s.wack d ≠ some false := by
  constructor
  · intro hkept c hc hx
    by_contra hnot
    refine hkept c ((mem_hcHandleLifespan hs e c).2 ⟨hc, fun ⟨l, hl, hmem⟩ => hnot ?_⟩) hx
    exact ⟨(mem_swept.1 hmem).1, l, hl, (mem_swept.1 hmem).2⟩
  · intro hreach c hc hx
    obtain ⟨hc, hnot⟩ := (mem_hcHandleLifespan hs e c).1 hc
    obtain ⟨hv, l, hl, hpre⟩ := hreach c hc hx
    exact hnot ⟨l, hl, mem_swept.2 ⟨hv, hpre⟩⟩

instance (e : Lifespans) (cfg : Config) (wack : Nat → Nat) (c : Change) : Decidable (Expired e cfg wack c) := by
  unfold Expired
  infer_instance

def seconds (n : Nat) : Int := n * 2 ^ 32

/-- At 8 s the writer 1 has a lifespan of 10 s, the others one of 1 s.  That of a writer cache is 10 ms. -/
def atEight : Lifespans := ⟨seconds 8, ⟨0, 10000000⟩, fun w => some ⟨if w = 1 then 10 else 1, 0⟩⟩

def sampleBy (w t : Nat) : Sample := ⟨.alive, w, seconds t, 4, true⟩

def oneExpired : State :=
  (exec (step byTimeReader 1) (fun _ _ => True) State.init [.register 1 false, .add 1 (sampleBy 2 6) calmEnv]).get
    (by decide)

theorem expired_removed : oneExpired.changes ≠ [] ∧
    ∀ c ∈ (hcHandleLifespan byTimeReader atEight oneExpired).changes, ¬Expired atEight byTimeReader oneExpired.wack c :=
  have hrun : Run (step byTimeReader 1) (fun _ _ => True) State.init
    [.register 1 false, .add 1 (sampleBy 2 6) calmEnv] oneExpired := Run.of_isSome
  ⟨by decide, (lifespan_kept_iff (wf_of_run hrun) atEight).2 fun c hc _ => by
    obtain rfl := mem_singleton.1 hc
    exact ⟨by decide, _, ⟨_, .head _, .inr (by decide), rfl⟩, [], [], rfl, nofun⟩⟩

/-- **An expired sample stays behind one that lives longer, and in a writer cache for 13 years.** -/
theorem expired_stays :
    (∃ es s, Run (step byTimeReader 1) (fun _ _ => True) State.init es s ∧
      ∃ c ∈ (hcHandleLifespan byTimeReader atEight s).changes, Expired atEight byTimeReader s.wack c) ∧
    ∃ es s, Run (step byTimeWriter 1) (fun _ _ => True) State.init es s ∧
      ∃ c ∈ (hcHandleLifespan byTimeWriter atEight s).changes, Expired atEight byTimeWriter s.wack c := by
  have hreader : Run (step byTimeReader 1) (fun _ _ => True) State.init
    [.register 1 false, .add 1 (sampleBy 1 5) calmEnv, .add 1 (sampleBy 2 6) calmEnv] _ := Run.of_isSome
  have hwriter : Run (step byTimeWriter 1) (fun _ _ => True) State.init
    [.register 1 false, .add 1 (sampleBy 0 6) calmEnv] _ := Run.of_isSome
  exact ⟨⟨_, _, hreader, by decide⟩, _, _, hwriter, by decide⟩

end Qeo.Cache
