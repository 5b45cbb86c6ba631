import QeoCore.Sfrr
import QeoCore.StateAt
/-!
# SfrrGaps — a GAP range, number by number

`sfr_rel_gap_range` adds a range in front of the list or behind it, or marks what overlaps with the list.  A range that
overlaps and sticks out at either end loses what sticks out.
-/
namespace Qeo.Rtps

open List Ccref Tiles RemWriter

variable {a b s first last : Int} {st : ChangeState} {nodes : List RwRef} {list : Cclist Unit} {p : RemWriter}

/-! ## A gap next to the list -/

theorem addGapTail_says (st : ChangeState) (h : Contiguous a list.nodes b) (hle : b ≤ last) :
    Contiguous a (list.addGapTail () b last st).nodes (last + 1) ∧
    ∀ s, stateAt (list.addGapTail () b last st).nodes s =
      if b ≤ s ∧ s ≤ last then some (false, st) else stateAt list.nodes s := by
  rcases list.addGapTail_cases () b last st with ⟨init, x, y, z, hn, hu, hst, he⟩ | he
  · rw [he, hn]
    rw [hn] at h
    obtain ⟨hinit, hyz, hb⟩ := tiled_concat.1 h
    rw [first_of_range hu] at hinit hyz
    rw [last_of_range hu] at hb hyz
    refine ⟨tiled_concat.2 ⟨hinit, by simp only [Ccref.first, Ccref.last]; omega, rfl⟩, fun s => ?_⟩
    rw [stateAt_append, stateAt_append, stateAt_range rfl, stateAt_range hu, hst]
    by_cases hs : b ≤ s ∧ s ≤ last
    · rw [Contiguous.outside hinit (.inr (by omega)), if_pos (by omega), if_pos hs, Option.none_or]
    · rw [if_neg hs, if_congr (show y ≤ s ∧ s ≤ last ↔ y ≤ s ∧ s ≤ z by omega) rfl rfl]
  · rw [he]
    refine ⟨tiled_concat.2 ⟨h, hle, rfl⟩, fun s => ?_⟩
    rw [stateAt_append, stateAt_range rfl]
    by_cases hs : b ≤ s ∧ s ≤ last
    · rw [h.outside (.inr hs.1), if_pos hs, if_pos hs]
      rfl
    · rw [if_neg hs, if_neg hs, stateAt, Option.or_none]

theorem addGapHead_says (st : ChangeState) (h : Contiguous a list.nodes b) (hlt : first < a) :
    Contiguous first (list.addGapHead () first (a - 1) st).nodes b ∧
    ∀ s, stateAt (list.addGapHead () first (a - 1) st).nodes s =
      if first ≤ s ∧ s < a then some (false, st) else stateAt list.nodes s := by
  rcases list.addGapHead_cases () first (a - 1) st with ⟨x, rest, y, z, hn, hu, hst, he⟩ | he
  · rw [he, hn]
    rw [hn] at h
    obtain ⟨ha, hyz, hrest⟩ := tiled_cons.1 h
    rw [first_of_range hu] at ha hyz
    rw [last_of_range hu] at hyz hrest
    refine ⟨tiled_cons.2 ⟨rfl, by simp only [Ccref.first, Ccref.last]; omega, hrest⟩, fun s => ?_⟩
    rw [stateAt_range rfl, stateAt_range hu, hst]
    by_cases hs : first ≤ s ∧ s < a
    · rw [if_pos (by omega), if_pos hs]
    · rw [if_neg hs, if_congr (show first ≤ s ∧ s ≤ z ↔ y ≤ s ∧ s ≤ z by omega) rfl rfl]
  · rw [he]
    refine ⟨tiled_cons.2 ⟨rfl, by simp only [gap, Ccref.first, Ccref.last]; omega, ?_⟩, fun s => ?_⟩
    · rw [show (gap () first (a - 1) st).last + 1 = a from Int.sub_add_cancel a 1]
      exact h
    · rw [stateAt_range rfl, if_congr (show first ≤ s ∧ s ≤ a - 1 ↔ first ≤ s ∧ s < a by omega) rfl rfl]
      rfl

/-! ## A gap within the list -/

/-- What the overlap makes of a number: a range's is received, a sample's stays a sample's, and outside of the gap
nothing changes. -/
def Overlaid (first last s : Int) (e e' : Bool × ChangeState) : Prop :=
  if first ≤ s ∧ s ≤ last then e'.1 = e.1 ∧ (e.1 = false → e'.2 = .received) else e' = e

theorem overlaid_keep (h : ¬ (first ≤ s ∧ s ≤ last)) : Overlaid first last s e e := by
  rw [Overlaid, if_neg h]

theorem overlaid_received (h : first ≤ s ∧ s ≤ last) : Overlaid first last s (false, st) (false, .received) := by
  rw [Overlaid, if_pos h]
  exact ⟨rfl, fun _ => rfl⟩

theorem gapNodes_overlaid (hu : rp.u = .range x y) (hx : x ≤ first) (hy : first ≤ y) (hle : first ≤ last) :
    Contiguous x (gapNodes rp x y first (min y last)) (y + 1) ∧
    ∀ z ∈ gapNodes rp x y first (min y last), ∀ s, z.Holds s →
      Overlaid first last s (false, rp.state) (z.relevant, z.state) := by
  unfold gapNodes
  split
  · -- At most three parts: before `first`, received, and behind `last`.
    obtain ⟨m, hm, h3, h4, h5⟩ : ∃ m, min y last = m ∧ m ≤ y ∧ m ≤ last ∧ (m = y ∨ m = last) := ⟨_, rfl, by omega⟩
    rw [hm, sfrRelGapSet]
    by_cases h1 : x < first <;> by_cases h2 : m < y <;>
      simp only [h1, h2, if_true, if_false, cons_append, nil_append, Contiguous, tiled_cons, Tiles.tiled_nil,
        gap, Ccref.first, Ccref.last, Holds, relevant, mem_cons, not_mem_nil, or_false,
        forall_eq_or_imp, forall_eq, true_and, and_true]
    all_goals
      refine ⟨by omega, ?_⟩
      repeat' refine And.intro ?_ ?_
      all_goals
        intro s hs
        first
          | exact overlaid_received (by omega)
          | exact overlaid_keep (by omega)
  rename_i hst
  have hst' : rp.state = .received := by simpa using hst
  refine ⟨tiled_cons.2 ⟨first_of_range hu, ?_, ?_⟩, fun z hz s _ => ?_⟩
  · rw [first_of_range hu, last_of_range hu]
    omega
  · rw [last_of_range hu]
    rfl
  obtain rfl := mem_singleton.1 hz
  rw [relevant_of_range hu, hst']
  by_cases hs : first ≤ s ∧ s ≤ last
  · exact overlaid_received hs
  · exact overlaid_keep hs

theorem Overlaid.shift (h : Overlaid first' last s e e')
    (hs : first ≤ s ↔ first' ≤ s) : Overlaid first last s e e' := by
  unfold Overlaid at h ⊢
  rw [if_congr (and_congr_left' hs) rfl rfl]
  exact h

theorem gapSample_u (rp : RwRef) (c first : Int) : (gapSample rp c first).u = rp.u := by
  unfold gapSample
  split <;> rfl

theorem RemWriter.GapStep.overlaid (hstep : GapStep rp last first parts first') (hup : rp.first ≤ rp.last)
    (ha : rp.first ≤ first) (hle : first ≤ last) : Contiguous rp.first parts (rp.last + 1) ∧
      (∀ y ∈ parts, ∀ s, y.Holds s → Overlaid first last s (rp.relevant, rp.state) (y.relevant, y.state)) ∧
      (rp.last < first ∧ first' = first ∨ first ≤ rp.last ∧ first' = min rp.last last + 1) := by
  have one : ∀ {x : RwRef}, x.u = rp.u → Contiguous rp.first [x] (rp.last + 1) := by
    intro x hu
    simpa [Contiguous, Ccref.first, Ccref.last, hu] using hup
  cases hstep with
  | @sample c hu hs =>
    have hgu := (gapSample_u rp c first).trans hu
    have hf := first_of_sample hu
    have hl := last_of_sample hu
    refine ⟨one (gapSample_u rp c first), fun y hy s hs => ?_, .inr (by omega)⟩
    obtain rfl := mem_singleton.1 hy
    rw [Holds, first_of_sample hgu, last_of_sample hgu] at hs
    rw [Overlaid, if_pos (by omega), relevant_of_sample hgu, relevant_of_sample hu]
    exact ⟨rfl, by simp⟩
  | passed hlt =>
    refine ⟨one rfl, fun y hy s hs => ?_, .inl ⟨hlt, rfl⟩⟩
    obtain rfl := mem_singleton.1 hy
    exact overlaid_keep fun h => absurd hs.2 (by omega)
  | range hu hb =>
    have hl := last_of_range hu
    rw [first_of_range hu] at ha ⊢
    obtain ⟨hp, hR⟩ := gapNodes_overlaid hu ha hb hle
    rw [← relevant_of_range hu] at hR
    exact ⟨hl ▸ hp, hR, .inr (by omega)⟩

/-- **The loop over changes that overlap says of each number what the gap says of it**, from the first change on. -/
theorem gapOverlap_overlaid : ∀ {nodes : List RwRef} {a first : Int}, Contiguous a nodes b → a ≤ first → first ≤ last →
    Contiguous a (gapOverlap last first nodes).1 b ∧
      ∀ s, Option.Rel (Overlaid first last s) (stateAt nodes s) (stateAt (gapOverlap last first nodes).1 s)
  | [], _, _, h, _, _ => ⟨h, fun _ => .none⟩
  | rp :: rest, a, first, ⟨hf, hup, h⟩, ha, hle => by
    subst hf
    obtain ⟨parts, first', hstep, he⟩ := gapOverlap_cons hle rp rest
    obtain ⟨hp, hR, hnext⟩ := hstep.overlaid hup ha hle
    rw [he]
    split
    · refine ⟨hp.append h, hp.rel_cons h h hR fun s hs => ?_⟩
      cases stateAt rest s with
      | none => exact .none
      | some e => exact .some (overlaid_keep (by omega))
    obtain ⟨hc, hrel⟩ := gapOverlap_overlaid h (show rp.last + 1 ≤ first' by omega) (by omega)
    refine ⟨hp.append hc, hp.rel_cons h hc hR fun s hs => ?_⟩
    have hs' := hrel s
    generalize stateAt rest s = e at hs' ⊢
    generalize stateAt (gapOverlap last first' rest).1 s = e' at hs' ⊢
    cases hs' with
    | none => exact .none
    | some hov => exact .some (hov.shift (by omega))

theorem gapOverlap_bounds (last lo hi : Int) : ∀ {nodes : List RwRef} {first : Int},
    (∀ rp ∈ nodes, lo < rp.first ∧ rp.last < hi) → lo ≤ first → first ≤ last →
    ∀ y ∈ (gapOverlap last first nodes).1, lo < y.first ∧ y.last < hi
  | [], _, _, _, _, y, hy => by simp [gapOverlap] at hy
  | rp :: rest, first, h, hlo, hle, y, hy => by
    obtain ⟨hrp, hrest⟩ := forall_mem_cons.1 h
    obtain ⟨parts, first', hstep, he⟩ := gapOverlap_cons hle rp rest
    rw [he] at hy
    have hparts : lo ≤ first' ∧ ∀ y ∈ parts, lo < y.first ∧ y.last < hi := by
      cases hstep with
      | sample hu hs =>
        refine ⟨by omega, fun y hy => ?_⟩
        obtain rfl := mem_singleton.1 hy
        simpa only [Ccref.first, Ccref.last, gapSample_u] using hrp
      | passed hlt => exact ⟨hlo, by simpa using hrp⟩
      | range hu hb =>
        obtain ⟨hx, hz⟩ := hrp
        rw [first_of_range hu] at hx
        rw [last_of_range hu] at hz
        refine ⟨by omega, fun y hy => ?_⟩
        unfold gapNodes sfrRelGapSet at hy
        repeat' split at hy
        all_goals
          simp only [cons_append, nil_append, mem_cons, not_mem_nil, or_false] at hy
          rcases hy with rfl | rfl | rfl <;>
            simp only [gap, Ccref.first, Ccref.last, hu] <;> omega
    split at hy <;> rcases mem_append.1 hy with hy | hy
    · exact hparts.2 y hy
    · exact hrest y hy
    · exact hparts.2 y hy
    · exact gapOverlap_bounds last lo hi hrest hparts.1 (by omega) y hy

/-! ## The result -/

/-- The gap `[first, last]` is processed: each number of it that is still expected is in the list, as a sample or not
missing, and no other number is touched, but for missing ones in between. -/
structure GapDone (p q : RemWriter) (first last : Int) : Prop where
  complete : ∀ s, first ≤ s → s ≤ last → p.seqnrNext ≤ s →
    ∃ e, stateAt q.changes.nodes s = some e ∧ (e.1 = true ∨ e.2 ≠ .missing)
  contiguous : ∃ a b, Contiguous a q.changes.nodes b
  kept : ∀ s, ¬ (first ≤ s ∧ s ≤ last) → ∀ e, stateAt p.changes.nodes s = some e → stateAt q.changes.nodes s = some e
  fresh : ∀ s, ¬ (first ≤ s ∧ s ≤ last) → stateAt p.changes.nodes s = none → ∀ e, stateAt q.changes.nodes s = some e →
    e = (false, .missing)

/-- The part of the gap that is still expected is behind the list, in front of it, or within. -/
def RemWriter.GapFits (p : RemWriter) (first last : Int) : Prop :=
  last < p.seqnrNext ∨ match p.changes.nodes, p.changes.nodes.getLast? with
    | head :: _, some tail =>
      tail.last < max first p.seqnrNext ∨ last < head.first ∨ head.first ≤ max first p.seqnrNext ∧ last ≤ tail.last
    | _, _ => True

theorem gapDone_of_next {out : Int → Option (Bool × ChangeState)} (hf : f = max first p.seqnrNext)
    (hc : Contiguous a q.changes.nodes b)
    (hin : ∀ s, stateAt q.changes.nodes s = if f ≤ s ∧ s ≤ last then some (false, .received) else out s)
    (hout : ∀ s, out s = stateAt p.changes.nodes s ∨ stateAt p.changes.nodes s = none ∧
    out s = some (false, .missing)) :
    GapDone p q first last := by
  refine ⟨fun s h1 h2 h3 => ⟨_, (hin s).trans (if_pos (by omega)), .inr (by simp)⟩, ⟨a, b, hc⟩, fun s hs e he => ?_,
    fun s hs hn e he => ?_⟩
  · rw [hin, if_neg (by omega)]
    rcases hout s with h | ⟨h, _⟩
    · rw [h, he]
    · rw [he] at h
      cases h
  · rw [hin, if_neg (by omega)] at he
    rcases hout s with h | ⟨_, h⟩
    · rw [h, hn] at he
      cases he
    · rw [h, Option.some.injEq] at he
      exact he.symm

theorem gapAfter_says (h : Contiguous a list.nodes b) (hb : b ≤ f) :
    let list' := if b < f then list.addGapTail () b (f - 1) .missing else list
    Contiguous a list'.nodes f ∧
      ∀ s, stateAt list'.nodes s = if b ≤ s ∧ s < f then some (false, .missing) else stateAt list.nodes s := by
  intro list'
  by_cases hlt : b < f
  · have hadd := addGapTail_says .missing h (show b ≤ f - 1 by omega)
    simp only [list', if_pos hlt]
    rw [Int.sub_add_cancel] at hadd
    refine ⟨hadd.1, fun s => ?_⟩
    rw [hadd.2, if_congr (show b ≤ s ∧ s ≤ f - 1 ↔ b ≤ s ∧ s < f by omega) rfl rfl]
  · obtain rfl : b = f := by omega
    simp only [list', if_neg hlt]
    exact ⟨h, fun s => (if_neg (by omega)).symm⟩

theorem gapBefore_says (h : Contiguous a list.nodes b) (ha : last < a) :
    let list' := if last < a - 1 then list.addGapHead () (last + 1) (a - 1) .missing else list
    Contiguous (last + 1) list'.nodes b ∧
      ∀ s, stateAt list'.nodes s = if last < s ∧ s < a then some (false, .missing) else stateAt list.nodes s := by
  intro list'
  by_cases hlt : last < a - 1
  · have hadd := addGapHead_says .missing h (show last + 1 < a by omega)
    simp only [list', if_pos hlt]
    refine ⟨hadd.1, fun s => ?_⟩
    rw [hadd.2, if_congr (show last + 1 ≤ s ∧ s < a ↔ last < s ∧ s < a by omega) rfl rfl]
  · obtain rfl : a = last + 1 := by omega
    simp only [list', if_neg hlt]
    exact ⟨h, fun s => (if_neg (by omega)).symm⟩

theorem gapDone_overlap (h : Contiguous a p.changes.nodes b) {q : RemWriter} (hf : f = max first p.seqnrNext)
    (hq : q.changes.nodes = (gapOverlap last f p.changes.nodes).1) (hfl : f ≤ last) :
    GapDone p q first last ↔ a ≤ f ∧ last < b := by
  constructor
  · intro hd
    have hbounds := gapOverlap_bounds last (min f (a - 1)) b
      (fun rp hm => by have := h.bounds hm; omega) (Int.min_le_left f (a - 1)) hfl
    rw [← hq] at hbounds
    -- What sticks out is in no node.
    have hnot : ∀ s, first ≤ s → s ≤ last → p.seqnrNext ≤ s → min f (a - 1) < s ∧ s < b := by
      intro s h1 h2 h3
      obtain ⟨e, he, _⟩ := hd.complete s h1 h2 h3
      obtain ⟨y, hy, hs, _⟩ := exists_of_stateAt he
      have := hbounds y hy
      omega
    have h1 := hnot f (by omega) hfl (by omega)
    have h2 := hnot last (by omega) (Int.le_refl _) (by omega)
    omega
  rintro ⟨ha, hb⟩
  obtain ⟨hc, hrel⟩ := gapOverlap_overlaid h ha hfl
  rw [← hq] at hc hrel
  refine ⟨fun s h1 h2 h3 => ?_, ⟨a, b, hc⟩, fun s hs e he => ?_, fun s hs hn e he => ?_⟩
  all_goals have hr := hrel s
  · obtain ⟨e, he⟩ := h.inside (s := s) (by omega) (by omega)
    obtain ⟨e', he'⟩ := hc.inside (s := s) (by omega) (by omega)
    rw [he, he'] at hr
    cases hr with
    | some hr =>
      rw [Overlaid, if_pos (by omega)] at hr
      refine ⟨e', he', ?_⟩
      cases h1 : e.1 with
      | true => exact .inl (hr.1.trans h1)
      | false => exact .inr (by rw [hr.2 h1]; decide)
  · rw [he] at hr
    generalize stateAt q.changes.nodes s = e' at hr ⊢
    cases hr with
    | some hr =>
      rw [Overlaid, if_neg (by omega)] at hr
      rw [hr]
  · rw [hn, he] at hr
    cases hr

/-- **A GAP range is processed if and only if its part that is still expected lies behind the list, in front of it or
within it.** -/
theorem gap_range_done_iff (h : Contiguous a p.changes.nodes b) (hle : first ≤ last) :
    GapDone p (p.sfrRelGapRange first last).1 first last ↔ p.GapFits first last := by
  by_cases hnext : last < p.seqnrNext
  · rw [sfrRelGapRange, if_pos hnext]
    refine iff_of_true ⟨?_, ⟨a, b, h⟩, fun _ _ _ he => he, ?_⟩ (.inl hnext)
    · omega
    · intro s _ hn e he
      rw [hn] at he
      cases he
  have hmax : (if first < p.seqnrNext then p.seqnrNext else first) = max first p.seqnrNext := by omega
  rw [sfrRelGapRange, if_neg hnext, hmax]
  obtain ⟨f, hf⟩ : ∃ f, f = max first p.seqnrNext := ⟨_, rfl⟩
  unfold GapFits
  rw [← hf]
  cases hn : p.changes.nodes with
  | nil =>
    have hnil : Contiguous f p.changes.nodes f := by
      rw [hn]
      rfl
    obtain ⟨hc, hs⟩ := addGapTail_says .received hnil (show f ≤ last by omega)
    exact iff_of_true (gapDone_of_next hf hc hs fun _ => .inl rfl) (.inr trivial)
  | cons head rest =>
    obtain ⟨tail, ht⟩ : ∃ tail, (head :: rest).getLast? = some tail := ⟨_, getLast?_cons⟩
    have hb : tail.last + 1 = b := by
      obtain ⟨init, hi⟩ := getLast?_eq_some_iff.1 ht
      rw [hn, hi] at h
      exact (tiled_concat.1 h).2.2
    have ha : head.first = a := by
      rw [hn] at h
      exact h.1
    rw [ht]
    dsimp only
    by_cases h1 : tail.last < f
    · rw [if_pos h1]
      refine iff_of_true ?_ (.inr (.inl h1))
      obtain ⟨hc1, hs1⟩ := gapAfter_says h (f := f) (by omega)
      rw [← hb] at hc1 hs1
      obtain ⟨hc, hs⟩ := addGapTail_says .received hc1 (show f ≤ last by omega)
      refine gapDone_of_next hf hc hs fun s => ?_
      rw [hs1]
      split
      · exact .inr ⟨h.outside (.inr (by omega)), rfl⟩
      · exact .inl rfl
    rw [if_neg h1]
    by_cases h2 : last < head.first
    · rw [if_pos h2]
      refine iff_of_true ?_ (.inr (.inr (.inl h2)))
      obtain ⟨hc1, hs1⟩ := gapBefore_says h (show last < a by omega)
      rw [← ha] at hs1 hc1
      obtain ⟨hc, hs⟩ := addGapHead_says .received hc1 (show f < last + 1 by omega)
      rw [Int.add_sub_cancel] at hc hs
      simp only [Int.lt_add_one_iff] at hs
      refine gapDone_of_next hf hc hs fun s => ?_
      rw [hs1]
      split
      · exact .inr ⟨h.outside (.inl (by omega)), rfl⟩
      · exact .inl rfl
    · rw [if_neg h2, ← hn, gapDone_overlap h hf rfl (by omega)]
      omega

def hasFive : RemWriter :=
  { sfrRelStart false 0 with seqnrNext := 3, changes := ⟨[⟨(), .received, false, false, .sample 5⟩], 1⟩ }

theorem hasFive_contiguous : Contiguous 5 hasFive.changes.nodes 6 := by
  simp [Contiguous, hasFive, Ccref.first, Ccref.last]

theorem gap_before_done : hasFive.GapFits 2 3 ∧ GapDone hasFive (hasFive.sfrRelGapRange 2 3).1 2 3 :=
  have h : hasFive.GapFits 2 3 := .inr (.inr (.inl (by decide)))
  ⟨h, (gap_range_done_iff hasFive_contiguous (by decide)).2 h⟩

/-- The gap 3 to 7 reaches over the sample: neither 3 and 4 nor 6 and 7 get into the list. -/
theorem gap_across_lost : (hasFive.sfrRelGapRange 3 7).1.changes = hasFive.changes ∧
    ¬ GapDone hasFive (hasFive.sfrRelGapRange 3 7).1 3 7 := by
  refine ⟨by decide, fun h => ?_⟩
  obtain ⟨e, he, _⟩ := h.complete 3 (by decide) (by decide) (by decide)
  exact absurd he (by rw [show stateAt (hasFive.sfrRelGapRange 3 7).1.changes.nodes 3 = none by decide]; simp)

end Qeo.Rtps
