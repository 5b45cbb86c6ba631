import QeoCore.CacheRead
/-!
# CacheGet — reading one instance, and one instance after the other

With a handle `hc_get` walks the instances, or in skiplists looks it up.  The lookup does not pass by the visitor
(`hc_get_fct`), which tells an empty list from a list and marks the instance as seen.
-/
namespace Qeo.Cache

open List

structure Get where
  m : SkipMask
  n : Nat
  rem : Bool
  mark : Bool
deriving DecidableEq

open Get

def Get.done (cfg : Config) (g : Get) (s : State) (c : Change) : State :=
  let s1 := { s with unread := if g.mark then Function.update s.unread c.uid false else s.unread }
  if g.rem then { hcChangeRemove cfg s1 c with blocked := false } else s1

def Get.list (cfg : Config) (g : Get) (s : State) (i : Instance) : Option (List Change × State) :=
  (hcGetList none (fun c => skipped g.m i.kind i.newView (s.unread c.uid)) g.n i.list).map fun l =>
    (l.1, l.1.foldl (g.done cfg) s)

def Get.byWalk (cfg : Config) (g : Get) (s : State) (h : Nat) : List Instance → Option (List Change × State)
  | [] => some ([], s)
  | i :: is =>
    if g.m.skipsView i.newView || i.handle ≠ h then byWalk cfg g s h is
    else (if i.list.isEmpty then some ([], s) else g.list cfg s i).map fun r =>
      (r.1, r.2.modify h fun i => { i with newView := false })

/-- The lookup in skiplists.  The head of an empty list is its timestamp, which is taken for a pointer unless it is 0 or
nothing is wanted. -/
def Get.byHandle (cfg : Config) (g : Get) (s : State) (time : Nat → Int) (h : Nat) : Option (List Change × State) :=
  match s.inst? h with
  | none => some ([], s)
  | some i =>
    if i.list.isEmpty then if time h = 0 || g.n = 0 then some ([], s) else none
    else g.list cfg s i

def Get.SameReading (cfg : Config) (g : Get) (s : State) (time : Nat → Int) (h : Nat) : Prop :=
  ∃ r, g.byWalk cfg s h s.instances = some r ∧ g.byHandle cfg s time h = some r

variable {cfg : Config} {g : Get} {s : State} {i : Instance} {h : Nat}

/-! ## What is seen of an instance -/

def State.views (s : State) : List (Nat × Bool) := s.instances.map fun i => (i.handle, i.newView)

theorem views_modify {f : Instance → Instance} (hf : ∀ i, (f i).handle = i.handle ∧ (f i).newView = i.newView) :
    (s.modify h f).views = s.views := by
  unfold State.views State.modify
  rw [map_map]
  refine map_congr_left fun i _ => ?_
  show ((if i.handle = h then f i else i).handle, (if i.handle = h then f i else i).newView) = _
  split
  · rw [(hf i).1, (hf i).2]
  · rfl

theorem views_hcChangeRemove (s : State) (c : Change) : (hcChangeRemove cfg s c).views = s.views := by
  unfold hcChangeRemove
  split
  · exact views_modify fun _ => ⟨rfl, rfl⟩
  · rfl

theorem views_done : ∀ (l : List Change) (s : State), (l.foldl (g.done cfg) s).views = s.views
  | [], _ => rfl
  | c :: l, s => by
    rw [foldl_cons, views_done l]
    cases hr : g.rem with
    | true =>
      simp only [done, hr, if_true]
      exact views_hcChangeRemove _ c
    | false =>
      simp only [done, hr, Bool.false_eq_true, if_false]
      rfl

theorem seen_eq_self_iff : s.modify h (fun i => { i with newView := false }) = s ↔ (h, true) ∉ s.views := by
  constructor
  · intro heq hmem
    rw [← heq] at hmem
    obtain ⟨j, hj, hview⟩ := mem_map.1 hmem
    obtain ⟨i, -, rfl⟩ := mem_modify.1 hj
    split at hview
    · cases hview
    · rename_i hne
      exact hne (Prod.mk.inj hview).1
  intro hnot
  have hid : s.instances.map (fun i => if i.handle = h then { i with newView := false } else i) = s.instances := by
    refine (map_congr_left fun i hi => ?_).trans (map_id _)
    split
    · rename_i hh
      cases hv : i.newView with
      | false => rw [← hv]; rfl
      | true => exact absurd (mem_map.2 ⟨i, hi, by rw [hh, hv]⟩) hnot
    · rfl
  unfold State.modify
  rw [hid]

/-! ## One instance -/

theorem Get.list_eq (g : Get) (s : State) (i : Instance) : ∃ l, g.list cfg s i = some (l, l.foldl (g.done cfg) s) ∧
    (g.m.skipsView i.newView = true → l = []) := by
  unfold list
  rw [hcGetList_eq (q := none) fun _ _ hq => absurd hq Bool.false_ne_true]
  refine ⟨_, rfl, fun hskip => ?_⟩
  have hnone : i.list.filter (fun c => !skipped g.m i.kind i.newView (s.unread c.uid)) = [] := by
    rw [filter_eq_nil_iff]
    simp [skipped, SkipMask.skipsSample, hskip]
  rw [hnone]
  simp [chosen]

theorem byWalk_eq (hs : s.Handles) (hi : i ∈ s.instances) : g.byWalk cfg s i.handle s.instances =
    if g.m.skipsView i.newView then some ([], s)
    else (if i.list.isEmpty then some ([], s) else g.list cfg s i).map fun r =>
      (r.1, r.2.modify i.handle fun i => { i with newView := false }) := by
  have hother : ∀ is : List Instance, (∀ j ∈ is, j.handle ≠ i.handle) → g.byWalk cfg s i.handle is = some ([], s) := by
    intro is
    induction is with
    | nil => exact fun _ => rfl
    | cons j is ih =>
      intro hne
      rw [byWalk, if_pos (by simp [hne j mem_cons_self])]
      exact ih (forall_mem_cons.1 hne).2
  have hwalk : ∀ is : List Instance, (is.map fun i => i.handle).Nodup → i ∈ is → g.byWalk cfg s i.handle is =
      g.byWalk cfg s i.handle [i] := by
    intro is
    induction is with
    | nil => exact fun _ hmem => nomatch hmem
    | cons j is ih =>
      intro hnd hmem
      rw [map_cons, nodup_cons] at hnd
      have hbehind : j = i → ∀ k ∈ is, k.handle ≠ i.handle :=
        fun heq k hk hh => hnd.1 (mem_map.2 ⟨k, hk, by rw [heq]; exact hh⟩)
      rcases mem_cons.1 hmem with rfl | hmem
      · simp only [byWalk, hother is (hbehind rfl)]
      · have hne : j.handle ≠ i.handle := fun heq => hnd.1 (mem_map.2 ⟨i, hmem, heq.symm⟩)
        rw [byWalk, if_pos (by simp [hne])]
        exact ih hnd.2 hmem
  rw [hwalk s.instances hs hi]
  cases hv : g.m.skipsView i.newView <;> simp [byWalk, hv]

/-- **Both forms read an instance alike exactly if the lookup does not run into the timestamp of an empty list and the
instance, unless masked out, has been seen before.** -/
theorem same_reading_iff (hs : s.Handles) (hi : i ∈ s.instances) (g : Get) (time : Nat → Int) :
    g.SameReading cfg s time i.handle ↔
      (i.list ≠ [] ∨ time i.handle = 0 ∨ g.n = 0) ∧ (i.newView = false ∨ g.m.skipsView true = true) := by
  have hview : (i.handle, true) ∈ s.views ↔ i.newView = true := by
    refine ⟨fun hmem => ?_, fun hv => mem_map.2 ⟨i, hi, by rw [hv]⟩⟩
    obtain ⟨j, hj, heq⟩ := mem_map.1 hmem
    obtain ⟨hh, hv⟩ := Prod.mk.inj heq
    rw [← eq_of_handle hs hj hi hh]
    exact hv
  have hseen : ∀ l : List Change, (l.foldl (g.done cfg) s).modify i.handle (fun i => { i with newView := false }) =
      l.foldl (g.done cfg) s ↔ i.newView = false := by
    intro l
    rw [seen_eq_self_iff, views_done, hview, Bool.not_eq_true]
  obtain ⟨l, hl, hnil⟩ := @Get.list_eq cfg g s i
  have hempty := hseen []
  rw [foldl_nil] at hempty
  rw [Get.SameReading, byWalk_eq hs hi, Get.byHandle, inst?_eq hs hi]
  have hmask : g.m.skipsView i.newView = true → (i.newView = false ∨ g.m.skipsView true = true) := by
    intro hm
    cases hv : i.newView with
    | false => exact .inl rfl
    | true => exact .inr (hv ▸ hm)
  have hsame : ∀ {l : List Change} {t t' : State}, (∃ r, some (l, t) = some r ∧ some (l, t') = some r) ↔ t = t' := by
    intro l t t'
    constructor
    · rintro ⟨r, h, h'⟩
      exact (Prod.mk.inj (Option.some.inj (h.trans h'.symm))).2
    · rintro rfl
      exact ⟨_, rfl, rfl⟩
  by_cases hm : g.m.skipsView i.newView = true
  · obtain rfl := hnil hm
    rw [and_iff_left (hmask hm), if_pos hm]
    by_cases hlist : i.list = []
    · by_cases ht : time i.handle = 0 ∨ g.n = 0 <;> simp [hlist, ht]
    · simp [hlist, hl]
  have hnew : i.newView = false ∨ g.m.skipsView true = true ↔ i.newView = false := by
    refine or_iff_left_of_imp fun ht => ?_
    cases hv : i.newView with
    | false => rfl
    | true => exact absurd (hv ▸ ht) hm
  rw [hnew, if_neg hm]
  by_cases hlist : i.list = []
  · by_cases ht : time i.handle = 0 ∨ g.n = 0
    · have ht' : (decide (time i.handle = 0) || decide (g.n = 0)) = true := by simpa using ht
      simp only [hlist, isEmpty_nil, if_true, Option.map_some, ht', hsame, hempty, ht, or_true, true_and]
    · simp [hlist, ht]
  · simp only [List.isEmpty_iff, hlist, if_false, hl, Option.map_some, hsame, hseen l, ne_eq, not_false_iff, true_or,
      true_and]

def onlySample : Change where
  uid := 0
  kind := .alive
  writer := 4
  handle := 7
  time := 1
  seqnr := 0
  dispCnt := 0
  noWCnt := 0
  length := 8
  db := true

def seventh (newView : Bool) (l : List Change) : Instance :=
  { Instance.new 7 true with list := l, kind := .alive, newView := newView, owner := 4, writers := [4] }

/-- Thirteen instances, which are kept in skiplists, and one of them with samples. -/
def thirteen (newView : Bool) (l : List Change) : State :=
  { State.init with
    changes := l
    instances := seventh newView l :: (List.range 12).map fun h => { Instance.new (h + 8) true with newView := false } }

def readAny : Get := { m := noMask, n := 1, rem := false, mark := true }

theorem same_reading_seen : readAny.SameReading byTimeReader (thirteen false [onlySample]) (fun _ => 1) 7 :=
  (same_reading_iff (i := seventh false [onlySample]) (by decide) (by decide) readAny fun _ => 1).2 (by decide)

/-- **In skiplists an instance stays new when it is read, and reading one without samples runs into its timestamp.** -/
theorem instance_stays_new :
    ¬ readAny.SameReading byTimeReader (thirteen true [onlySample]) (fun _ => 1) 7 ∧
    readAny.byHandle byTimeReader (thirteen false []) (fun _ => 1) 7 = none := by
  refine ⟨?_, rfl⟩
  rintro ⟨r, hwalk, hlookup⟩
  have hviews := congrArg (Option.map fun r => r.2.views) (hwalk.trans hlookup.symm)
  revert hviews
  decide

/-! ## One instance after the other -/

variable {m : SkipMask} {unread : Nat → Bool}

def samples (m : SkipMask) (unread : Nat → Bool) (i : Instance) : List Change :=
  i.list.filter fun c => !skipped m i.kind i.newView (unread c.uid)

def getNext (m : SkipMask) (unread : Nat → Bool) (h : Nat) : List Instance → List Change × List Instance
  | [] => ([], [])
  | i :: is =>
    if m.skipsView i.newView || (h ≠ 0 && i.handle ≤ h) then ((getNext m unread h is).1, i :: (getNext m unread h is).2)
    else if samples m unread i = [] then
      ((getNext m unread h is).1, { i with newView := false } :: (getNext m unread h is).2)
    else (samples m unread i, { i with newView := false } :: is)

def ofCache (m : SkipMask) (s : State) : List Change :=
  s.changes.filter fun c => !skipped m s.kind s.newView (s.unread c.uid)

/-- `hc_get` with `next` set.  Without instances to walk, or for the handle 0 in order of arrival, it reads
`hc_changes`. -/
def hcGetNext (cfg : Config) (m : SkipMask) (s : State) (h : Nat) (is : List Instance) : List Change × List Instance :=
  if cfg.multiInst && (cfg.instOrder || h ≠ 0) then getNext m s.unread h is else (ofCache m s, is)

def readOn (get : Nat → List Instance → List Change × List Instance) : Nat → Nat → List Instance → List (List Change)
  | 0, _, _ => []
  | calls + 1, h, is =>
    match (get h is).1.getLast? with
    | none => []
    | some c => (get h is).1 :: readOn get calls c.handle (get h is).2

def readAll (cfg : Config) (m : SkipMask) (s : State) : List (List Change) :=
  readOn (hcGetNext cfg m s) (s.instances.length + 1) 0 s.instances

section
variable (m : SkipMask) (unread : Nat → Bool)

def matching? (i : Instance) : Option (Nat × List Change) :=
  if m.skipsView i.newView || samples m unread i = [] then none else some (i.handle, samples m unread i)

def matching (is : List Instance) : List (Nat × List Change) :=
  is.filterMap (matching? m unread)

def ahead (h : Nat) (is : List Instance) : List (Nat × List Change) :=
  (matching m unread is).filter fun p => h < p.1

end

theorem ahead_cons (h : Nat) (i : Instance) (is : List Instance) : ahead m unread h (i :: is) =
    ((matching? m unread i).toList.filter fun p => h < p.1) ++ ahead m unread h is := by
  unfold ahead matching
  rw [filterMap_cons, ← filter_append]
  cases matching? m unread i <;> rfl

theorem ahead_pass (h : Nat) (is : List Instance) (hi : ∀ p, matching? m unread i = some p → ¬ h < p.1) :
    ahead m unread h (i :: is) = ahead m unread h is := by
  rw [ahead_cons]
  cases hp : matching? m unread i with
  | none => rfl
  | some p => simp [hi p hp]

theorem matching?_handle (hp : matching? m unread i = some p) : p = (i.handle, samples m unread i) := by
  unfold matching? at hp
  split at hp
  · cases hp
  · exact (Option.some.inj hp).symm

theorem matching?_seen (hv : m.skipsView i.newView = false) (hs : samples m unread i = []) :
    matching? m unread { i with newView := false } = none := by
  unfold matching?
  cases hf : m.skipsView false with
  | true => rfl
  | false =>
    have hsame : samples m unread { i with newView := false } = samples m unread i := by
      unfold samples skipped SkipMask.skipsSample
      rw [hv, hf]
    simp [hsame, hs]

def TookFirst (m : SkipMask) (unread : Nat → Bool) (h : Nat) (is : List Instance) (r : List Change × List Instance) :
    Prop :=
  match ahead m unread h is with
  | [] => r.1 = []
  | p :: rest => r.1 = p.2 ∧ ahead m unread p.1 r.2 = rest.filter fun q => p.1 < q.1

theorem getNext_spec (h : Nat) : ∀ {is : List Instance}, (∀ i ∈ is, 0 < i.handle) →
    TookFirst m unread h is (getNext m unread h is)
  | [], _ => rfl
  | i :: is, hpos => by
    have ih := getNext_spec h (forall_mem_cons.1 hpos).2
    -- an instance that is passed by is not ahead before, nor ahead of what is found after
    have hpass : ∀ j, (∀ k ≥ h, ∀ p, matching? m unread i = some p → ¬ k < p.1) →
        (∀ k ≥ h, ∀ p, matching? m unread j = some p → ¬ k < p.1) →
        TookFirst m unread h (i :: is) ((getNext m unread h is).1, j :: (getNext m unread h is).2) := by
      intro j hi hj
      unfold TookFirst at ih ⊢
      rw [ahead_pass h is (hi h (le_refl h))]
      cases ha : ahead m unread h is with
      | nil => rwa [ha] at ih
      | cons p rest =>
        rw [ha] at ih
        have hp : h < p.1 := by
          have hmem : p ∈ ahead m unread h is := ha ▸ mem_cons_self
          simpa using (mem_filter.1 hmem).2
        exact ⟨ih.1, (ahead_pass p.1 _ (hj p.1 (Nat.le_of_lt hp))).trans ih.2⟩
    by_cases hskip : (m.skipsView i.newView || (h ≠ 0 && i.handle ≤ h)) = true
    · have hnone : ∀ k ≥ h, ∀ p, matching? m unread i = some p → ¬ k < p.1 := by
        intro k hk p hp hlt
        rw [matching?_handle hp] at hlt
        rcases Bool.or_eq_true _ _ ▸ hskip with hv | hle
        · simp [matching?, hv] at hp
        · simp at hle
          omega
      rw [getNext, if_pos hskip]
      exact hpass i hnone hnone
    have hv : m.skipsView i.newView = false := by
      cases hv : m.skipsView i.newView with
      | false => rfl
      | true => simp [hv] at hskip
    by_cases hs : samples m unread i = []
    · rw [getNext, if_neg hskip, if_pos hs]
      refine hpass { i with newView := false } ?_ ?_
      · intro k _ p hp
        simp [matching?, hs] at hp
      · intro k _ p hp
        rw [matching?_seen hv hs] at hp
        cases hp
    have hlt : h < i.handle := by
      have := hpos i mem_cons_self
      simp [hv] at hskip
      omega
    have hm : matching? m unread i = some (i.handle, samples m unread i) := by simp [matching?, hv, hs]
    have ha : ahead m unread h (i :: is) = (i.handle, samples m unread i) :: ahead m unread h is := by
      rw [ahead_cons, hm]
      simp [hlt]
    rw [TookFirst, ha, getNext, if_neg hskip, if_neg hs]
    refine ⟨rfl, (ahead_pass _ _ fun p hp => ?_).trans ?_⟩
    · rw [matching?_handle hp]
      exact Nat.lt_irrefl _
    unfold ahead
    rw [filter_filter]
    refine filter_congr fun q _ => ?_
    simp
    omega

theorem getNext_keeps (h : Nat) (P : Instance → Prop) (hP : ∀ i, P i → P { i with newView := false }) :
    ∀ {is : List Instance}, (∀ i ∈ is, P i) → ∀ i ∈ (getNext m unread h is).2, P i
  | [], hall => hall
  | i :: is, hall => by
    have ih := getNext_keeps h P hP (forall_mem_cons.1 hall).2
    have hi := hall i mem_cons_self
    rw [getNext]
    split
    · exact forall_mem_cons.2 ⟨hi, ih⟩
    · split
      · exact forall_mem_cons.2 ⟨hP i hi, ih⟩
      · exact forall_mem_cons.2 ⟨hP i hi, (forall_mem_cons.1 hall).2⟩

def Handled (i : Instance) : Prop := 0 < i.handle ∧ ∀ c ∈ i.list, c.handle = i.handle

theorem readOn_spec : ∀ (calls h : Nat) {is : List Instance}, (∀ i ∈ is, Handled i) →
    (readOn (getNext m unread) calls h is).length ≤ (ahead m unread h is).length ∧
    ((readOn (getNext m unread) calls h is).length = (ahead m unread h is).length →
      (ahead m unread h is).Pairwise fun p q => p.1 < q.1) ∧
    ((ahead m unread h is).Pairwise (fun p q => p.1 < q.1) → (ahead m unread h is).length ≤ calls →
      readOn (getNext m unread) calls h is = (ahead m unread h is).map Prod.snd)
  | 0, h, is, _ => by
    refine ⟨Nat.zero_le _, fun hl => ?_, fun _ hl => ?_⟩
    · rw [length_eq_zero_iff.1 hl.symm]
      exact .nil
    · rw [length_eq_zero_iff.1 (Nat.le_zero.1 hl)]
      rfl
  | calls + 1, h, is, hall => by
    have hnext := @getNext_spec m unread h is fun i hi => (hall i hi).1
    have hkeep := @getNext_keeps m unread h Handled (fun _ hi => hi) is hall
    rw [readOn]
    unfold TookFirst at hnext
    cases ha : ahead m unread h is with
    | nil =>
      rw [ha] at hnext
      generalize getNext m unread h is = r at hnext
      obtain ⟨l, is'⟩ := r
      obtain rfl : l = [] := hnext
      exact ⟨Nat.le_refl _, fun _ => .nil, fun _ _ => rfl⟩
    | cons p rest =>
      rw [ha] at hnext
      have hp : p ∈ matching m unread is := (mem_filter.1 (ha ▸ mem_cons_self : p ∈ ahead m unread h is)).1
      obtain ⟨i, hi, hm⟩ := mem_filterMap.1 hp
      obtain rfl := matching?_handle hm
      generalize getNext m unread h is = r at hnext hkeep
      obtain ⟨l, is'⟩ := r
      obtain ⟨rfl, hrest⟩ := hnext
      dsimp only at hrest hkeep ⊢
      cases hl : (samples m unread i).getLast? with
      | none =>
        rw [getLast?_eq_none_iff] at hl
        simp [matching?, hl] at hm
      | some c =>
        have hc : c.handle = i.handle := (hall i hi).2 c (mem_filter.1 (mem_of_getLast? hl)).1
        obtain ⟨hle, hsort, heq⟩ := readOn_spec calls i.handle hkeep
        have hflen := length_filter_le (fun q : Nat × List Change => i.handle < q.1) rest
        rw [hrest] at hle hsort heq
        dsimp only
        rw [hc]
        refine ⟨?_, fun hlen => ?_, fun hs hlen => ?_⟩
        · simp only [length_cons]
          omega
        · simp only [length_cons] at hlen
          have hall' : rest.filter (fun q => i.handle < q.1) = rest :=
            filter_eq_self.2 (length_filter_eq_length_iff.1 (by omega))
          rw [hall'] at hsort
          refine pairwise_cons.2 ⟨fun q hq => ?_, hsort (by omega)⟩
          simpa using filter_eq_self.1 hall' q hq
        · obtain ⟨hfirst, hs⟩ := pairwise_cons.1 hs
          have hall' : rest.filter (fun q => i.handle < q.1) = rest :=
            filter_eq_self.2 fun q hq => by simpa using hfirst q hq
          rw [hall'] at heq
          rw [heq hs (by simpa using hlen), map_cons]

theorem readOn_again {next : Nat → List Instance → List Change × List Instance}
    (hget : ∀ h is, (next h is).1 = l) (hl : l ≠ []) : ∀ (calls h : Nat) (is : List Instance),
    readOn next calls h is = List.replicate calls l
  | 0, _, _ => rfl
  | calls + 1, h, is => by
    obtain ⟨c, hc⟩ := Option.isSome_iff_exists.1 (getLast?_isSome.2 hl)
    rw [readOn, hget, hc, replicate_succ]
    exact congrArg (l :: ·) (readOn_again hget hl calls _ _)

theorem readAll_keyless (hk : cfg.multiInst = false) {s : State} : (readAll cfg m s).Perm
    ((matching m s.unread s.instances).map Prod.snd) ↔ ofCache m s = [] ∧ matching m s.unread s.instances = [] := by
  have hget : ∀ h is, (hcGetNext cfg m s h is).1 = ofCache m s := by
    intro h is
    rw [hcGetNext, hk]
    rfl
  by_cases hl : ofCache m s = []
  · have hnil : readAll cfg m s = [] := by
      rw [readAll, readOn, hget, hl]
      rfl
    rw [hnil, nil_perm, map_eq_nil_iff, and_iff_right hl]
  · refine iff_of_false (fun hp => ?_) fun h => hl h.1
    -- one call more than there are instances, and each returns the same samples
    have hlen := hp.length_eq
    rw [readAll, readOn_again hget hl, length_replicate, length_map] at hlen
    have hle : (matching m s.unread s.instances).length ≤ s.instances.length := length_filterMap_le ..
    omega

/-- **Reading on instance by instance returns the samples of each matching instance once, exactly if the walk meets
those instances by ascending handles**; in skiplists it always does.  A keyless cache is read to an end only if nothing
matches. -/
theorem reads_all_iff {s : State} (ho : cfg.multiInst = true → cfg.instOrder = true)
    (hall : ∀ i ∈ s.instances, Handled i) :
    (readAll cfg m s).Perm ((matching m s.unread s.instances).map Prod.snd) ↔
      if cfg.multiInst then (matching m s.unread s.instances).Pairwise fun p q => p.1 < q.1
      else ofCache m s = [] ∧ matching m s.unread s.instances = [] := by
  cases hk : cfg.multiInst with
  | false => exact readAll_keyless hk
  | true =>
    have ha : ahead m s.unread 0 s.instances = matching m s.unread s.instances := by
      refine filter_eq_self.2 fun p hp => ?_
      obtain ⟨i, hi, hm⟩ := mem_filterMap.1 hp
      rw [matching?_handle hm]
      simpa using (hall i hi).1
    have hget : hcGetNext cfg m s = getNext m s.unread := by
      funext h is
      rw [hcGetNext, hk, ho hk]
      rfl
    obtain ⟨-, hsort, heq⟩ := @readOn_spec m s.unread (s.instances.length + 1) 0 s.instances hall
    rw [ha] at hsort heq
    rw [readAll, hget, if_pos rfl]
    constructor
    · intro hperm
      exact hsort (hperm.length_eq.trans (length_map _))
    · intro hs
      rw [heq hs (Nat.le_succ_of_le (length_filterMap_le ..))]

def ordered (instOrder : Bool) : Config := { byTimeReader with instOrder }

def twoInstances (h h' : Nat) : State :=
  { State.init with
    changes := [{ onlySample with handle := h }, { onlySample with uid := 1, handle := h' }]
    instances := [{ seventh true [{ onlySample with handle := h }] with handle := h },
      { seventh true [{ onlySample with uid := 1, handle := h' }] with handle := h' }] }

instance (i : Instance) : Decidable (Handled i) := inferInstanceAs (Decidable (_ ∧ _))

theorem reads_all_ascending : (readAll (ordered true) readAny.m (twoInstances 1 2)).Perm
    ((matching readAny.m (twoInstances 1 2).unread (twoInstances 1 2).instances).map Prod.snd) :=
  (reads_all_iff (fun _ => rfl) (by decide)).2 (by decide)

/-- **Behind an instance with a larger handle the other one is missed**, in order of arrival one is given twice, and a
keyless cache gives its sample again and again. -/
theorem smaller_handle_missed :
    readAll (ordered true) readAny.m (twoInstances 2 1) = [[{ onlySample with handle := 2 }]] ∧
    ¬ (readAll (ordered true) readAny.m (twoInstances 2 1)).Perm
      ((matching readAny.m (twoInstances 2 1).unread (twoInstances 2 1).instances).map Prod.snd) ∧
    readAll (ordered false) readAny.m (twoInstances 2 1) =
      [[{ onlySample with handle := 2 }, { onlySample with uid := 1, handle := 1 }],
        [{ onlySample with handle := 2 }]] ∧
    readAll { ordered true with multiInst := false } readAny.m
        { State.init with changes := [onlySample], instances := [seventh true [onlySample]] } =
      [[onlySample], [onlySample]] := by
  decide

end Qeo.Cache
