import Mathlib.Data.List.TakeDrop
import QeoCore.Sfrw
import QeoCore.StateAt
/-!
# SfrwGaps — what the GAPs of a send say

`sfw_rel_send_data` folds the ranges it comes by into GAPs: the first range is `gap_start ..< gap_base`, those behind it
bits, as far as 256 bits go.  A distance (`seqnr_delta`) of exactly 2^32 comes out as 0, and the call returns 0 also
when its last GAP could not be added.
-/
namespace Qeo.Rtps

open List

def GapInfo.Denotes (g : GapInfo) (s : Int) : Prop :=
  g.start ≤ s ∧ s < g.base ∨ g.base ≤ s ∧ g.bits.getD (s - g.base).toNat false = true

open GapInfo

instance (g : GapInfo) (s : Int) : Decidable (g.Denotes s) := inferInstanceAs (Decidable (_ ∨ _))

def gapsOf (msgs : List TxMsg) : List GapInfo :=
  msgs.filterMap fun
    | .gap start base bits => some ⟨start, base, bits⟩
    | _ => none

def repairVisits : List RrRef → List RrRef
  | [] => []
  | rp :: rest =>
    if rp.state ≠ .requested ∨ rp.relevant ∧ rp.fragments then repairVisits rest
    else (if passesFragments rest then { rp with state := .underway } else rp) :: repairVisits rest

def RemReader.visits (p : RemReader) : List RrRef :=
  if p.changes.nchanges = 0 then []
  else if p.tstate = .pushing then
    match p.unsentChanges with
    | none => []
    | some u => p.changes.nodes.dropWhile fun rp => rp.addr != u
  else if p.astate = .repairing then repairVisits p.changes.nodes
  else []

def Ccref.toGap (rp : RrRef) : Bool := !rp.relevant && rp.state != .underway

def gapRanges (visits : List RrRef) : List (Int × Int) := (visits.filter Ccref.toGap).map fun rp => (rp.first, rp.last)

/-- The GAPs for the ranges.  `lost` says that the last one could not be added. -/
def gapsSent (lost : Bool) : Option GapInfo → List (Int × Int) → List GapInfo
  | gap, [] => if lost then [] else gap.toList
  | none, r :: rest => gapsSent lost (some ⟨r.1, r.2 + 1, []⟩) rest
  | some g, r :: rest =>
    if seqnrDelta g.base r.2 ≤ 255 then gapsSent lost (some (g.add r.1 r.2)) rest
    else g :: gapsSent lost (some ⟨r.1, r.2 + 1, []⟩) rest

theorem gapsSent_nil (lost : Bool) : gapsSent lost none [] = [] := by
  cases lost <;> rfl

/-! ## The passes send those GAPs -/

theorem gapsOf_append (l m : List TxMsg) : gapsOf (l ++ m) = gapsOf l ++ gapsOf m := filterMap_append

theorem gapsOf_flush (tx : Int → TxRes) (gap : Option GapInfo) :
    gapsOf (flush tx gap) = if (tx 0).error then [] else gap.toList := by
  unfold flush
  split
  · rfl
  · cases gap <;> rfl

theorem sendNode_gaps (lost : Bool) (h : (sendNode tx gap rp).error = false) (rest : List RrRef) :
    gapsOf (sendNode tx gap rp).msgs ++ gapsSent lost (sendNode tx gap rp).gap (gapRanges rest) =
      gapsSent lost gap (gapRanges (rp :: rest)) := by
  cases hu : rp.u with
  | sample c =>
    have hr : gapRanges (rp :: rest) = gapRanges rest := by simp [gapRanges, Ccref.toGap, Ccref.relevant_of_sample hu]
    rw [hr]
    simp only [sendNode, hu]
    split
    · by_cases he : (tx c).error = true
      · simp only [he, if_true]
        rfl
      · simp only [he, Bool.false_eq_true, if_false]
        rfl
    · rfl
  | range x y =>
    simp only [sendNode, hu] at h ⊢
    by_cases hst : rp.state = .underway
    · simp [gapRanges, Ccref.toGap, hst, gapsOf]
    rw [if_neg hst] at h ⊢
    have hr : gapRanges (rp :: rest) = (x, y) :: gapRanges rest := by
      simp [gapRanges, Ccref.toGap, Ccref.relevant_of_range hu, hst, Ccref.first_of_range hu, Ccref.last_of_range hu]
    rw [hr]
    cases gap with
    | none => rfl
    | some g =>
      dsimp only at h ⊢
      by_cases hd : seqnrDelta g.base y ≤ 255
      · rw [if_pos hd, gapsSent, if_pos hd]
        rfl
      rw [if_neg hd] at h ⊢
      have he : (tx x).error = false := h
      rw [gapsSent, if_neg hd, he]
      rfl

theorem pushPass_gaps (tx : Int → TxRes) : ∀ (nodes : List RrRef) (gap : Option GapInfo),
    (pushPass tx gap nodes).stopped = none →
    gapsOf ((pushPass tx gap nodes).msgs ++ flush tx (pushPass tx gap nodes).gap) =
      gapsSent (tx 0).error gap (gapRanges nodes)
  | [], gap, _ => by simp [pushPass, gapsOf_flush, gapRanges, gapsSent]
  | rp :: rest, gap, h => by
    rw [pushPass] at h ⊢
    cases he : (sendNode tx gap rp).error with
    | true => simp [he] at h
    | false =>
      simp only [he, Bool.false_eq_true, if_false] at h ⊢
      have ih := pushPass_gaps tx rest _ h
      rw [Pass.cons, append_assoc, gapsOf_append, ih, sendNode_gaps _ he]

theorem repairPass_gaps (tx : Int → TxRes) : ∀ (nodes : List RrRef) (started : Bool) (gap : Option GapInfo),
    (repairPass tx started gap nodes).1.stopped = none →
    gapsOf ((repairPass tx started gap nodes).1.msgs ++ flush tx (repairPass tx started gap nodes).1.gap) =
      gapsSent (tx 0).error gap (gapRanges (repairVisits nodes))
  | [], started, gap, _ => by simp [repairPass, gapsOf_flush, gapRanges, repairVisits, gapsSent]
  | rp :: rest, started, gap, h => by
    rw [repairPass] at h ⊢
    rw [repairVisits]
    by_cases h1 : rp.state ≠ .requested
    · rw [if_pos h1] at h ⊢
      rw [if_pos (.inl h1)]
      exact repairPass_gaps tx rest started gap h
    rw [if_neg h1] at h ⊢
    by_cases h2 : (rp.relevant && rp.fragments) = true
    · have hskip : rp.state ≠ .requested ∨ rp.relevant ∧ rp.fragments := .inr (by simpa using h2)
      rw [if_pos h2] at h ⊢
      rw [if_pos hskip]
      exact repairPass_gaps tx rest started gap h
    have hsend : ¬ (rp.state ≠ .requested ∨ rp.relevant ∧ rp.fragments) := by simpa [h1] using h2
    rw [if_neg h2] at h ⊢
    rw [if_neg hsend]
    generalize (if passesFragments rest = true then { rp with state := ChangeState.underway } else rp) = x at h ⊢
    cases he : (sendNode tx gap x).error with
    | true => simp [he] at h
    | false =>
      simp only [he, Bool.false_eq_true, if_false] at h ⊢
      have ih := repairPass_gaps tx rest true _ h
      rw [Pass.cons, append_assoc, gapsOf_append, ih, sendNode_gaps _ he]

variable {p q : RemReader} {active : Bool} {tx : Int → TxRes} {msgs : List TxMsg}

theorem sfwRelSendData_gaps (h : p.sfwRelSendData active tx = some (q, msgs, false)) :
    gapsOf msgs = gapsSent (tx 0).error none (gapRanges p.visits) := by
  unfold RemReader.sfwRelSendData at h
  unfold RemReader.visits
  dsimp only at h
  split at h
  · rename_i h0
    rw [if_pos h0]
    cases h
    exact (gapsSent_nil _).symm
  rename_i h0
  rw [if_neg h0]
  split at h
  · rename_i h1
    rw [if_pos h1]
    rcases hu : p.unsentChanges with _ | u <;> rw [hu] at h <;> dsimp only at h ⊢
    · cases h
      exact (gapsSent_nil _).symm
    rw [span_eq_takeWhile_dropWhile] at h
    split at h
    · cases h
    rename_i pre post _ hsp
    obtain ⟨rfl, rfl⟩ := Prod.mk.inj hsp
    split at h
    · cases h
    · rename_i hst
      cases h
      exact pushPass_gaps tx _ none hst
  rename_i h1
  rw [if_neg h1]
  split at h
  · rename_i h2
    rw [if_pos h2]
    split at h
    · cases h
    rename_i hst
    have hg := repairPass_gaps tx p.changes.nodes false none hst
    repeat' split at h
    all_goals
      cases h
      exact hg
  · rename_i h2
    rw [if_neg h2]
    cases h
    exact (gapsSent_nil _).symm

/-! ## What the GAPs denote -/

def Ascending : Int → List (Int × Int) → Prop
  | _, [] => True
  | lo, r :: rest => lo ≤ r.1 ∧ r.1 ≤ r.2 ∧ Ascending (r.2 + 1) rest

/-- No range ends exactly 2^32 above the base of the GAP it comes to.  The base is the number behind the range that
opens the GAP. -/
def NoWrap : Option Int → List (Int × Int) → Prop
  | _, [] => True
  | none, r :: rest => NoWrap (some (r.2 + 1)) rest
  | some base, r :: rest => r.2 - base ≠ 2 ^ 32 ∧ NoWrap (some (if r.2 - base ≤ 255 then base else r.2 + 1)) rest

variable {lo a b s : Int} {g : GapInfo} {ranges : List (Int × Int)}

theorem Ascending.mono : ∀ {ranges : List (Int × Int)} {lo lo' : Int}, Ascending lo ranges → lo' ≤ lo →
    Ascending lo' ranges
  | [], _, _, _, _ => trivial
  | _ :: _, _, _, ⟨h1, h2, h3⟩, hle => ⟨Int.le_trans hle h1, h2, h3⟩

theorem Ascending.le : ∀ {ranges : List (Int × Int)} {lo : Int}, Ascending lo ranges →
    ∀ r ∈ ranges, lo ≤ r.1 ∧ r.1 ≤ r.2
  | r :: rest, lo, ⟨h1, h2, h3⟩, r', hm => by
    rcases mem_cons.1 hm with rfl | hm
    · exact ⟨h1, h2⟩
    · have := h3.le r' hm
      omega

theorem ascending_cons (hlo : lo ≤ rp.first) (hup : rp.first ≤ rp.last)
    (h : Ascending (rp.last + 1) (gapRanges visits)) :
    Ascending lo (gapRanges (rp :: visits)) ∧ Ascending lo (gapRanges visits) := by
  refine ⟨?_, h.mono (by omega)⟩
  unfold gapRanges
  rw [filter_cons]
  split
  · exact ⟨hlo, hup, h⟩
  · exact h.mono (by omega)

theorem gapRanges_ascending : ∀ {nodes : List RrRef} {a : Int}, Contiguous a nodes b → Ascending a (gapRanges nodes)
  | [], _, _ => trivial
  | _ :: _, _, ⟨hf, hup, h⟩ => (ascending_cons (Int.le_of_eq hf.symm) hup (gapRanges_ascending h)).1

theorem repairVisits_ascending : ∀ {nodes : List RrRef} {a : Int}, Contiguous a nodes b →
    Ascending a (gapRanges (repairVisits nodes))
  | [], _, _ => trivial
  | rp :: rest, _, ⟨hf, hup, h⟩ => by
    have ih := repairVisits_ascending h
    rw [repairVisits]
    split
    · exact (ascending_cons (Int.le_of_eq hf.symm) hup ih).2
    · refine (ascending_cons ?_ ?_ ?_).1 <;> split <;> first | exact Int.le_of_eq hf.symm | exact hup | exact ih

theorem visits_ascending (h : Contiguous a p.changes.nodes b) : ∃ lo, Ascending lo (gapRanges p.visits) := by
  unfold RemReader.visits
  repeat' split
  · exact ⟨0, trivial⟩
  · exact ⟨0, trivial⟩
  · obtain ⟨a', h'⟩ := h.dropWhile fun rp => rp.addr != _
    exact ⟨a', gapRanges_ascending h'⟩
  · exact ⟨a, repairVisits_ascending h⟩
  · exact ⟨0, trivial⟩

theorem seqnrDelta_le_iff (h : a ≤ b) : seqnrDelta a b ≤ 255 ↔ b - a ≤ 255 ∨ b - a = 2 ^ 32 := by
  unfold seqnrDelta
  split <;> omega

structure GapInfo.Below (g : GapInfo) (lo : Int) : Prop where
  start : g.start ≤ g.base
  bits : g.base + g.bits.length ≤ lo

theorem GapInfo.Below.new (h : a ≤ b) : Below ⟨a, b + 1, []⟩ (b + 1) := ⟨by simp only; omega, by simp⟩

theorem denotes_new : Denotes ⟨a, b + 1, []⟩ s ↔ a ≤ s ∧ s ≤ b := by
  simp only [Denotes, getD_nil, Bool.false_eq_true, and_false, or_false]
  omega

theorem lt_of_getD {bits : List Bool} (h : bits.getD i false = true) : i < bits.length := by
  by_contra hge
  rw [getD_eq_getElem?_getD, getElem?_eq_none (by omega)] at h
  cases h

theorem GapInfo.Below.lt (h : g.Below lo) (hs : g.Denotes s) : g.start ≤ s ∧ s < lo := by
  obtain ⟨h1, h2⟩ := h
  rcases hs with hs | ⟨hb, hs⟩
  · omega
  · have := lt_of_getD hs
    omega

theorem getD_range_map (f : Nat → Bool) (n i : Nat) :
    ((List.range n).map f).getD i false = (decide (i < n) && f i) := by
  by_cases h : i < n <;> simp [h]

theorem GapInfo.Below.add (h : g.Below lo) (hlo : lo ≤ a) (hle : a ≤ b) : (g.add a b).Below (b + 1) := by
  have hbits := h.bits
  have hdelta : seqnrDelta g.base a ≤ a - g.base := by
    unfold seqnrDelta
    split <;> omega
  refine ⟨h.start, ?_⟩
  simp only [GapInfo.add, length_map, length_range]
  omega

theorem GapInfo.Below.denotes_add (h : g.Below lo) (hlo : lo ≤ a) (hle : a ≤ b) (hd : b - g.base ≤ 255) :
    (g.add a b).bits.length ≤ 256 ∧ ∀ s, (g.add a b).Denotes s ↔ g.Denotes s ∨ a ≤ s ∧ s ≤ b := by
  have hbits := h.bits
  have hdelta : (seqnrDelta g.base a).toNat = (a - g.base).toNat := by
    unfold seqnrDelta
    split <;> omega
  have hlen : (g.add a b).bits.length = (b - g.base).toNat + 1 := by
    simp only [GapInfo.add, hdelta, length_map, length_range]
    omega
  refine ⟨by omega, fun s => ?_⟩
  simp only [Denotes, GapInfo.add, hdelta, getD_range_map, Bool.and_eq_true, Bool.or_eq_true,
    decide_eq_true_eq]
  constructor
  · rintro (hs | ⟨hb, hi, hs | hs⟩)
    · exact .inl (.inl hs)
    · exact .inl (.inr ⟨hb, hs⟩)
    · exact .inr (by omega)
  · rintro ((hs | ⟨hb, hs⟩) | hs)
    · exact .inl hs
    · have := lt_of_getD hs
      exact .inr ⟨hb, by omega, .inl hs⟩
    · exact .inr ⟨by omega, by omega, .inr (by omega)⟩

/-- **As long as no distance is 2^32 the GAPs denote the ranges**, and no index is past the end of `gap_bits`. -/
theorem gapsSent_exact : ∀ {ranges : List (Int × Int)} {lo : Int} (gap : Option GapInfo), Ascending lo ranges →
    (∀ g ∈ gap, g.Below lo ∧ g.bits.length ≤ 256) → NoWrap (gap.map (·.base)) ranges →
    (∀ g ∈ gapsSent false gap ranges, g.bits.length ≤ 256) ∧
    ∀ s, (∃ g ∈ gapsSent false gap ranges, g.Denotes s) ↔ (∃ g ∈ gap, g.Denotes s) ∨ ∃ r ∈ ranges, r.1 ≤ s ∧ s ≤ r.2
  | [], _, gap, _, hg, _ => ⟨fun g hm => (hg g (by simpa [gapsSent] using hm)).2, fun s => by simp [gapsSent]⟩
  | r :: rest, lo, none, ⟨_, h2, h3⟩, _, hw => by
    obtain ⟨hl, hs⟩ := gapsSent_exact (some ⟨r.1, r.2 + 1, []⟩) h3 (by simpa using Below.new h2) hw
    exact ⟨hl, fun s => by simp [gapsSent, hs, denotes_new]⟩
  | r :: rest, lo, some g, ⟨h1, h2, h3⟩, hg, ⟨hne, hw⟩ => by
    obtain ⟨hgb, hfits⟩ := hg g rfl
    have hbase := hgb.bits
    rw [gapsSent]
    by_cases hd : r.2 - g.base ≤ 255
    · rw [if_pos ((seqnrDelta_le_iff (by omega)).2 (.inl hd))]
      rw [if_pos hd] at hw
      obtain ⟨hlen, hden⟩ := hgb.denotes_add h1 h2 hd
      obtain ⟨hl, hs⟩ := gapsSent_exact (some (g.add r.1 r.2)) h3 (by simpa using ⟨hgb.add h1 h2, hlen⟩) hw
      exact ⟨hl, fun s => by simp [hs, hden, or_assoc]⟩
    rw [if_neg (by rw [seqnrDelta_le_iff (by omega)]; exact not_or.2 ⟨hd, hne⟩)]
    rw [if_neg hd] at hw
    obtain ⟨hl, hs⟩ := gapsSent_exact (some ⟨r.1, r.2 + 1, []⟩) h3 (by simpa using Below.new h2) hw
    refine ⟨?_, fun s => ?_⟩
    · simpa using ⟨hfits, hl⟩
    · have hs' := hs s
      simp only [Option.mem_some_iff, exists_eq_left', denotes_new] at hs' ⊢
      simp [hs']

/-! ## What happens at a distance of 2^32 -/

theorem gapsSent_start : ∀ {ranges : List (Int × Int)} {lo : Int} (gap : Option GapInfo), Ascending lo ranges →
    (∀ g ∈ gap, lo ≤ g.start ∧ lo ≤ g.base) → ∀ g ∈ gapsSent false gap ranges, lo ≤ g.start ∧ lo ≤ g.base
  | [], _, gap, _, hg, g, hm => hg g (by simpa [gapsSent] using hm)
  | r :: rest, lo, none, ⟨h1, h2, h3⟩, _, g, hm => gapsSent_start _ (h3.mono (by omega)) (by simp; omega) g hm
  | r :: rest, lo, some g', ⟨h1, h2, h3⟩, hg, g, hm => by
    rw [gapsSent] at hm
    split at hm
    · exact gapsSent_start (some (g'.add r.1 r.2)) (h3.mono (by omega)) (by simpa [GapInfo.add] using hg g' rfl) g hm
    · rcases mem_cons.1 hm with rfl | hm
      · exact hg g rfl
      · exact gapsSent_start (some ⟨r.1, r.2 + 1, []⟩) (h3.mono (by omega)) (by simp; omega) g hm

theorem gapsSent_late (g : GapInfo) : ∀ {ranges : List (Int × Int)} {lo : Int}, Ascending lo ranges →
    g.base + 2 ^ 32 < lo → ∃ gs, gapsSent false (some g) ranges = g :: gs ∧ ∀ g' ∈ gs, lo ≤ g'.start ∧ lo ≤ g'.base
  | [], _, _, _ => ⟨[], rfl, by simp⟩
  | r :: rest, lo, ⟨h1, h2, h3⟩, hlo => by
    refine ⟨_, by rw [gapsSent, if_neg (by rw [seqnrDelta_le_iff (by omega)]; omega)], ?_⟩
    exact gapsSent_start _ (h3.mono (by omega)) (by simp; omega)

/-- **A range that ends 2^32 above the base is lost, or its bits are written past the end of `gap_bits`.** -/
theorem gapsSent_wrap : ∀ {ranges : List (Int × Int)} {lo : Int} (gap : Option GapInfo), Ascending lo ranges →
    (∀ g ∈ gap, g.Below lo) → ¬ NoWrap (gap.map (·.base)) ranges →
    (∃ g ∈ gapsSent false gap ranges, 256 < g.bits.length) ∨
      ∃ r ∈ ranges, ∃ s, r.1 ≤ s ∧ s ≤ r.2 ∧ ∀ g ∈ gapsSent false gap ranges, ¬ g.Denotes s
  | [], _, _, _, _, hw => absurd trivial hw
  | r :: rest, lo, none, ⟨h1, h2, h3⟩, _, hw => by
    refine (gapsSent_wrap (some ⟨r.1, r.2 + 1, []⟩) h3 (by simpa using Below.new h2) hw).imp_right ?_
    exact fun ⟨r', hm, hs⟩ => ⟨r', mem_cons_of_mem r hm, hs⟩
  | r :: rest, lo, some g, ⟨h1, h2, h3⟩, hg, hw => by
    have hgb : g.Below lo := hg g rfl
    have hbase := hgb.bits
    rw [gapsSent]
    by_cases hne : r.2 - g.base = 2 ^ 32
    · rw [if_pos ((seqnrDelta_le_iff (by omega)).2 (.inr hne))]
      obtain ⟨gs, heq, hgs⟩ := gapsSent_late (g.add r.1 r.2) h3 (show g.base + 2 ^ 32 < r.2 + 1 by omega)
      rw [heq]
      by_cases hlt : r.1 < r.2
      · refine .inl ⟨g.add r.1 r.2, by simp, ?_⟩
        simp only [GapInfo.add, seqnrDelta, length_map, length_range]
        split <;> omega
      refine .inr ⟨r, by simp, r.2, by omega, Int.le_refl _, ?_⟩
      have hdelta : seqnrDelta g.base r.1 = 0 := by
        unfold seqnrDelta
        split <;> omega
      intro g' hm hd
      rcases mem_cons.1 hm with rfl | hm
      · rcases hd with ⟨_, hd⟩ | ⟨_, hd⟩
        · have : r.2 < g.base := hd
          omega
        · have := lt_of_getD hd
          simp only [GapInfo.add, hdelta, length_map, length_range] at this
          omega
      · have := hgs g' hm
        unfold Denotes at hd
        omega
    by_cases hd : r.2 - g.base ≤ 255
    · rw [if_pos ((seqnrDelta_le_iff (by omega)).2 (.inl hd))]
      have hw' : ¬ NoWrap (some g.base) rest := fun h => hw ⟨hne, by rw [if_pos hd]; exact h⟩
      refine (gapsSent_wrap (some (g.add r.1 r.2)) h3 (by simpa using hgb.add h1 h2) hw').imp_right ?_
      exact fun ⟨r', hm, hs⟩ => ⟨r', mem_cons_of_mem r hm, hs⟩
    rw [if_neg (by rw [seqnrDelta_le_iff (by omega)]; exact not_or.2 ⟨hd, hne⟩)]
    have hw' : ¬ NoWrap (some (r.2 + 1)) rest := fun h => hw ⟨hne, by rw [if_neg hd]; exact h⟩
    rcases gapsSent_wrap (some ⟨r.1, r.2 + 1, []⟩) h3 (by simpa using Below.new h2) hw' with
      ⟨g', hm, hl⟩ | ⟨r', hm, s, hs1, hs2, hs⟩
    · exact .inl ⟨g', mem_cons_of_mem g hm, hl⟩
    refine .inr ⟨r', mem_cons_of_mem r hm, s, hs1, hs2, ?_⟩
    intro g' hm' hden
    rcases mem_cons.1 hm' with rfl | hm'
    · have := hgb.lt hden
      have := h3.le r' hm
      omega
    · exact hs g' hm' hden

/-- **With the last GAP lost, the first number of a range is in no GAP.** -/
theorem gapsSent_lost : ∀ {ranges : List (Int × Int)} {lo : Int} {g : GapInfo}, Ascending lo ranges → g.Below lo →
    ∃ s ∈ g.start :: ranges.map (·.1), ∀ g' ∈ gapsSent true (some g) ranges, ¬ g'.Denotes s
  | [], _, g, _, _ => ⟨g.start, by simp, by simp [gapsSent]⟩
  | r :: rest, lo, g, ⟨h1, h2, h3⟩, hgb => by
    rw [gapsSent]
    split
    · obtain ⟨s, hs, hno⟩ := gapsSent_lost h3 (hgb.add h1 h2)
      exact ⟨s, cons_subset_cons _ (subset_cons_self _ _) hs, hno⟩
    · obtain ⟨s, hs, hno⟩ := gapsSent_lost h3 (Below.new h2)
      obtain ⟨r', hm, rfl⟩ : ∃ r' ∈ r :: rest, r'.1 = s := mem_map.1 hs
      have hasc : Ascending lo (r :: rest) := ⟨h1, h2, h3⟩
      have hlo := hasc.le r' hm
      refine ⟨r'.1, mem_cons_of_mem _ hs, ?_⟩
      intro g' hg' hd
      rcases mem_cons.1 hg' with rfl | hg'
      · have := hgb.lt hd
        omega
      · exact hno g' hg' hd

/-! ## The result -/

/-- The GAPs say what is irrelevant: they denote the ranges that the call comes by and that are not underway, no sample
of the list, and their bits are within `gap_bits`. -/
structure GapsExact (nodes visits : List RrRef) (gaps : List GapInfo) : Prop where
  exact (s : Int) : (∃ g ∈ gaps, g.Denotes s) ↔
    ∃ rp ∈ visits, rp.relevant = false ∧ rp.state ≠ .underway ∧ rp.Holds s
  noSample : ∀ g ∈ gaps, ∀ rp ∈ nodes, rp.relevant → ∀ s, rp.Holds s → ¬ g.Denotes s
  fits : ∀ g ∈ gaps, g.bits.length ≤ 256

theorem exists_gapRanges :
    (∃ r ∈ gapRanges visits, r.1 ≤ s ∧ s ≤ r.2) ↔
      ∃ rp ∈ visits, rp.relevant = false ∧ rp.state ≠ .underway ∧ rp.Holds s := by
  simp [gapRanges, Ccref.toGap, Ccref.Holds, and_assoc]

theorem repairVisits_mem : ∀ {nodes : List RrRef} {rp : RrRef}, rp ∈ repairVisits nodes → ∃ x ∈ nodes, x.u = rp.u
  | x :: rest, rp, h => by
    rw [repairVisits] at h
    split at h
    · obtain ⟨y, hy, hu⟩ := repairVisits_mem h
      exact ⟨y, mem_cons_of_mem x hy, hu⟩
    rcases mem_cons.1 h with rfl | h
    · refine ⟨x, by simp, ?_⟩
      split <;> rfl
    · obtain ⟨y, hy, hu⟩ := repairVisits_mem h
      exact ⟨y, mem_cons_of_mem x hy, hu⟩

theorem visits_mem (h : rp ∈ p.visits) : ∃ x ∈ p.changes.nodes, x.u = rp.u := by
  unfold RemReader.visits at h
  repeat' split at h
  · simp at h
  · simp at h
  · exact ⟨rp, (dropWhile_sublist _).subset h, rfl⟩
  · exact repairVisits_mem h
  · simp at h

def pushesAll (nodes : List RrRef) : RemReader :=
  { changes := ⟨nodes, nodes.length⟩, newSnr := 0, unsentChanges := some 0, requestedChanges := none,
    tstate := .pushing,
    astate := .waiting, peerAlive := true, nackTimer := none, lastAck := 0, pushMode := true, durable := false,
    nackRespDelay := 0, lastSeqnr := 0, nextAddr := 9, freed := [] }

def allSent : Int → TxRes := fun _ => ⟨true, false, false⟩

end Qeo.Rtps
