import Mathlib.Data.List.TakeDrop
import QeoCore.Sfrw
import QeoCore.Tiles
/-!
# SfrwRange — the change list of a reader proxy

The list a writer keeps for a reader is a contiguous ascending cover of sequence numbers.  `sfw_rel_rem_change` finds a
change by its number, and frees a gap that holds it as if it were a sample.
-/
namespace Qeo.Rtps

open RemReader Option Prod Cclist Tiles Trace
open List hiding tail set

variable {p p' q : RemReader} {a b snr : Int} {state : ChangeState} {nodes pre post : List RrRef} {rp : RrRef}
  {cached : Cached} {ap : AckNackSMsg}

def WCover (a : Int) (nodes : List RrRef) (b : Int) : Prop :=
  Tiled Ccref.first Ccref.last (fun rp => rp.first ≤ rp.last) a nodes b

theorem WCover.last_of_getLast? (h : WCover a nodes b) (ht : nodes.getLast? = some tail) : tail.last + 1 = b := by
  obtain ⟨init, rfl⟩ := getLast?_eq_some_iff.1 ht
  exact (tiled_concat.1 h).2.2

theorem WCover.growTail (h : WCover a nodes b) (ht : nodes.getLast? = some tail)
    (hr : tail.relevant = false) (hx : b ≤ x + 1) (state : ChangeState) :
    WCover a (nodes.dropLast ++ [{ tail.setLast x with state }]) (x + 1) := by
  obtain ⟨init, rfl⟩ := getLast?_eq_some_iff.1 ht
  obtain ⟨hinit, hle, hb⟩ := tiled_concat.1 h
  obtain ⟨y, z, hu⟩ := Ccref.exists_range hr
  rw [Ccref.first_of_range hu] at hinit hle
  refine tiled_concat.2 ⟨?_, ?_, ?_⟩
  · simpa [Ccref.setLast, Ccref.first, hu] using hinit
  · simp only [Ccref.setLast, Ccref.first, Ccref.last, hu]
    omega
  · simp [Ccref.setLast, Ccref.last]

/-! ## A new change -/

theorem changeEnqueue_cover (h : WCover a p.changes.nodes snr) (state : ChangeState) :
    WCover a (p.changeEnqueue snr state).changes.nodes (snr + 1) :=
  tiled_concat.2 ⟨h, Int.le_refl _, rfl⟩

theorem changeEnqueueGap_cover (first last : Int) (h : WCover a p.changes.nodes first) (hle : first ≤ last)
    (state : ChangeState) : WCover a (p.changeEnqueueGap first last state).changes.nodes (last + 1) := by
  unfold changeEnqueueGap
  rcases p.changes.addGapTail_cases p.nextAddr first last state with ⟨init, x, y, z, hn, hu, _, he⟩ | he
  · rw [he]
    rw [hn] at h
    obtain ⟨hinit, hyz, hb⟩ := tiled_concat.1 h
    rw [Ccref.first_of_range hu] at hinit hyz
    exact tiled_concat.2 ⟨hinit, by simp only [Ccref.first, Ccref.last]; omega, rfl⟩
  · rw [he]
    exact tiled_concat.2 ⟨h, hle, rfl⟩

theorem newChangeList_cover (h : WCover a p.changes.nodes b) (hb : b ≤ snr) (cp : Bool) (state : ChangeState) :
    ∃ a', WCover a' (p.newChangeList cp snr state).1.changes.nodes (snr + 1) := by
  unfold newChangeList
  split
  · rename_i tail ht
    have hlast := h.last_of_getLast? ht
    split
    · -- Behind a sample: a gap for what is left out, or for the change itself.
      refine ⟨a, ?_⟩
      cases cp with
      | true =>
        simp only [if_true]
        split
        · rename_i hne
          have hne' : tail.last + 1 ≠ snr := by simpa using hne
          have hg := changeEnqueueGap_cover (p := p) (tail.last + 1) (snr - 1) (by rw [hlast]; exact h) (by omega) state
          exact changeEnqueue_cover (by rwa [show snr - 1 + 1 = snr by omega] at hg) state
        · rename_i hne
          have he : tail.last + 1 = snr := by simpa using hne
          exact changeEnqueue_cover (by rw [← he, hlast]; exact h) state
      | false =>
        simp only [Bool.false_eq_true, if_false, Bool.not_false, or_true, if_true]
        exact changeEnqueueGap_cover _ _ (by rw [hlast]; exact h) (by omega) state
    · rename_i hr
      have hr' : tail.relevant = false := by simpa using hr
      refine ⟨a, ?_⟩
      split
      · have hg := h.growTail ht hr' (x := snr - 1) (by omega) tail.state
        exact changeEnqueue_cover (by rwa [show snr - 1 + 1 = snr by omega] at hg) state
      · exact h.growTail ht hr' (by omega) state
  · rename_i hn
    have hn' : p.changes.nodes = [] := by simpa using hn
    have hnil : WCover snr p.changes.nodes snr := by rw [hn']; rfl
    refine ⟨snr, ?_⟩
    split
    · exact changeEnqueue_cover hnil state
    · exact changeEnqueueGap_cover _ _ hnil (Int.le_refl _) state

theorem changeEnqueue_counted (h : p.changes.Counted) (snr : Int) (state : ChangeState) :
    (p.changeEnqueue snr state).changes.Counted := by
  unfold Counted at h ⊢
  simp [changeEnqueue, h]

theorem withTail_counted {tail : RrRef} (h : p.changes.Counted) (ht : p.changes.nodes.getLast? = some tail)
    (x : RrRef) : Counted ⟨p.changes.nodes.dropLast ++ [x], p.changes.nchanges⟩ := by
  unfold Counted at h ⊢
  obtain ⟨init, hi⟩ := getLast?_eq_some_iff.1 ht
  rw [h, hi]
  simp

theorem newChangeList_counted (h : p.changes.Counted) (cp : Bool) (snr : Int) (state : ChangeState) :
    (p.newChangeList cp snr state).1.changes.Counted := by
  unfold newChangeList
  split
  · rename_i tail ht
    split
    · cases cp with
      | true =>
        simp only [if_true]
        split
        · exact changeEnqueue_counted (addGapTail_counted h _ _ _) _ _
        · exact changeEnqueue_counted h _ _
      | false =>
        simp only [Bool.false_eq_true, if_false, Bool.not_false, or_true, if_true]
        exact addGapTail_counted h _ _ _
    · split
      · exact changeEnqueue_counted (p := { p with changes := _ }) (withTail_counted h ht _) _ _
      · exact withTail_counted h ht _
  · split
    · exact changeEnqueue_counted h _ _
    · exact addGapTail_counted h _ _ _

structure Extended (p q : RemReader) : Prop where
  lastSeqnr : q.lastSeqnr = p.lastSeqnr
  freed : q.freed = p.freed
  counted : p.changes.Counted → q.changes.Counted

theorem Extended.refl (p : RemReader) : Extended p p := ⟨rfl, rfl, id⟩

theorem newChangeList_rest (p : RemReader) (cp : Bool) (snr : Int) (state : ChangeState) :
    let q := (p.newChangeList cp snr state).1
    q.lastSeqnr = p.lastSeqnr ∧ q.freed = p.freed ∧ q.unsentChanges = p.unsentChanges ∧
      q.requestedChanges = p.requestedChanges := by
  unfold newChangeList
  dsimp only
  repeat' split
  all_goals exact ⟨rfl, rfl, rfl, rfl⟩

theorem setAckReq_cover (h : WCover a p.changes.nodes b) (addr : Nat) :
    WCover a (p.setAckReq addr).changes.nodes b := by
  refine Tiled.congr (forall₂_map_right_iff.2 (forall₂_same.2 fun rp _ => ?_)) h
  split <;> exact ⟨rfl, rfl, id⟩

structure Queued (p q : RemReader) (cp : Bool) (rp : Nat) : Prop where
  changes : q.changes = if cp then (p.setAckReq rp).changes else p.changes
  unsent : q.unsentChanges = p.unsentChanges.or (some rp)
  requested : q.requestedChanges = p.requestedChanges
  nextAddr : q.nextAddr = p.nextAddr
  lastSeqnr : q.lastSeqnr = p.lastSeqnr
  freed : q.freed = p.freed

theorem changeQueued_some (p : RemReader) (rhTimer cp : Bool) (state : ChangeState) (rp : Nat) :
    Queued p (p.changeQueued rhTimer cp state (some rp)) cp rp := by
  unfold changeQueued
  cases cp
  all_goals
    simp only [if_true, Bool.false_eq_true, if_false]
    repeat' split
    all_goals exact ⟨rfl, rfl, rfl, rfl, rfl, rfl⟩

theorem Queued.cover {rp : Nat} (hq : Queued p q cp rp) (h : WCover a p.changes.nodes b) :
    WCover a q.changes.nodes b := by
  rw [hq.changes]
  split
  · exact setAckReq_cover h rp
  · exact h

theorem Queued.counted {rp : Nat} (hq : Queued p q cp rp) (h : p.changes.Counted) : q.changes.Counted := by
  rw [hq.changes]
  unfold Counted at h ⊢
  split
  · simpa [setAckReq] using h
  · exact h

theorem sfwRelNewChange_extended (p : RemReader) (rhTimer cp : Bool) (snr : Int) :
    Extended p (p.sfwRelNewChange rhTimer cp snr) := by
  obtain ⟨hl, hf, -⟩ := newChangeList_rest p cp snr p.newState
  have hcnt : p.changes.Counted → _ := fun h => newChangeList_counted h cp snr p.newState
  unfold sfwRelNewChange
  generalize p.newChangeList cp snr p.newState = r at hl hf hcnt
  obtain ⟨q, _ | rp⟩ := r
  · exact ⟨hl, hf, hcnt⟩
  · have hq := changeQueued_some q rhTimer cp p.newState rp
    exact ⟨hq.lastSeqnr.trans hl, hq.freed.trans hf, fun h => hq.counted (hcnt h)⟩

theorem sfwRelNewChange_cover (h : WCover a p.changes.nodes b) (hb : b ≤ snr) (rhTimer cp : Bool) :
    ∃ a', WCover a' (p.sfwRelNewChange rhTimer cp snr).changes.nodes (snr + 1) := by
  obtain ⟨a', hcov⟩ := newChangeList_cover h hb cp p.newState
  unfold sfwRelNewChange
  generalize p.newChangeList cp snr p.newState = r at hcov
  obtain ⟨q, _ | rp⟩ := r
  · exact ⟨a', hcov⟩
  · exact ⟨a', (changeQueued_some q rhTimer cp p.newState rp).cover hcov⟩

theorem proxyAddChange_extended (p : RemReader) (rhTimer : Bool) (c : Int × FilterRes) :
    Extended p (p.proxyAddChange rhTimer c) := by
  unfold proxyAddChange
  split
  case h_3 => exact .refl p
  all_goals exact sfwRelNewChange_extended p rhTimer _ c.1

theorem proxyAddChange_cover (h : WCover a p.changes.nodes b) (hb : b ≤ c.1) (rhTimer : Bool) :
    ∃ a' b', WCover a' (p.proxyAddChange rhTimer c).changes.nodes b' ∧ b' ≤ c.1 + 1 := by
  unfold proxyAddChange
  split
  case h_3 => exact ⟨a, b, h, by omega⟩
  all_goals exact (sfwRelNewChange_cover h hb rhTimer _).imp fun _ hcov => ⟨c.1 + 1, hcov, Int.le_refl _⟩

theorem replay_extended (rhTimer : Bool) : ∀ (cached : Cached) (p : RemReader), Extended p (p.replay rhTimer cached)
  | [], p => .refl p
  | c :: cached, p => by
    have h := proxyAddChange_extended p rhTimer c
    have ih := replay_extended rhTimer cached (p.proxyAddChange rhTimer c)
    exact ⟨ih.lastSeqnr.trans h.lastSeqnr, ih.freed.trans h.freed, fun hc => ih.counted (h.counted hc)⟩

theorem replay_cover (rhTimer : Bool) : ∀ {cached : Cached} {p : RemReader} {a b : Int},
    cached.IsChain (fun c d => c.1 < d.1) → (∀ c ∈ cached, c.1 ≤ last) → (∀ c ∈ cached.head?, b ≤ c.1) →
    WCover a p.changes.nodes b → b ≤ last + 1 →
    ∃ a' b', WCover a' (p.replay rhTimer cached).changes.nodes b' ∧ b' ≤ last + 1
  | [], _, a, b, _, _, _, h, hb => ⟨a, b, h, hb⟩
  | c :: cached, p, a, b, hch, hle, hhead, h, hb => by
    obtain ⟨a', b', hcov, hb'⟩ := proxyAddChange_cover h (hhead c rfl) rhTimer
    have hc := hle c (by simp)
    show ∃ a' b', WCover a' ((p.proxyAddChange rhTimer c).replay rhTimer cached).changes.nodes b' ∧ b' ≤ last + 1
    refine replay_cover rhTimer hch.tail (forall_mem_cons.1 hle).2 (fun d hd => ?_) hcov (by omega)
    obtain ⟨rest, rfl⟩ := head?_eq_some_iff.1 hd
    have := (isChain_cons_cons.1 hch).1
    omega

/-! ## Removing a change -/

theorem findChange_some (h : findChange nodes snr = some (pre, rp, post)) :
    nodes = pre ++ rp :: post ∧ rp.first ≤ snr ∧ snr ≤ rp.last := by
  unfold findChange at h
  split at h
  · rename_i fp rest lp hl
    split at h
    · cases h
    split at h
    · rename_i hh
      cases h
      exact ⟨rfl, by simpa [holds] using hh⟩
    split at h
    · cases h
    split at h
    · rename_i hh
      cases h
      obtain ⟨init, hi⟩ := getLast?_eq_some_iff.1 hl
      exact ⟨by rw [hi, dropLast_concat], by simpa [holds] using hh⟩
    split at h
    · rename_i pre' rp' post' hspan
      cases h
      rw [span_eq_takeWhile_dropWhile] at hspan
      obtain ⟨hpre, hpost⟩ := mk.inj hspan
      have hh := head?_dropWhile_not (fun rp => !holds rp snr) rest
      rw [hpost] at hh
      refine ⟨?_, by simpa [holds] using hh⟩
      rw [← hpre, ← hpost, cons_append, takeWhile_append_dropWhile]
    · cases h
  · cases h

theorem joinPrev_cover (h : WCover a pre snr) (hu : rp.u = .range snr snr) :
    WCover a (joinPrev pre rp snr).1 (joinPrev pre rp snr).2.first ∧ (joinPrev pre rp snr).2.first ≤ snr ∧
      (joinPrev pre rp snr).2.u = .range (joinPrev pre rp snr).2.first snr := by
  have hself : WCover a pre rp.first ∧ rp.first ≤ snr ∧ rp.u = .range rp.first snr := by
    rw [Ccref.first_of_range hu]
    exact ⟨h, Int.le_refl _, hu⟩
  unfold joinPrev
  split
  · rename_i prev hprev
    split
    · exact hself
    rename_i hr
    obtain ⟨x, y, hx⟩ := Ccref.exists_range (show prev.relevant = false by simpa using hr)
    obtain ⟨init, rfl⟩ := getLast?_eq_some_iff.1 hprev
    obtain ⟨hinit, hxy, hy⟩ := tiled_concat.1 h
    rw [Ccref.first_of_range hx] at hinit hxy
    rw [dropLast_concat, Ccref.setLast_of_range hx]
    exact ⟨hinit, by simp only [Ccref.first]; omega, rfl⟩
  · exact hself

theorem joinNext_cover (hf : rp.first = f) (hle : f ≤ snr) (hu : rp.u = .range f snr)
    (h : WCover (snr + 1) post b) : WCover f (joinNext rp post) b := by
  have hlast := Ccref.last_of_range hu
  have hup : rp.first ≤ rp.last := by omega
  unfold joinNext
  split
  · rename_i next rest
    split
    · exact ⟨hf, hup, by rw [hlast]; exact h⟩
    rename_i hr
    obtain ⟨x, y, hx⟩ := Ccref.exists_range (show next.relevant = false by simpa using hr)
    obtain ⟨h1, h2, h3⟩ := h
    rw [Ccref.last_of_range hx] at h2 h3
    rw [Ccref.setFirst_of_range hx, hf]
    exact ⟨rfl, by simp only [Ccref.first, Ccref.last]; omega, h3⟩
  · obtain rfl : snr + 1 = b := h
    exact ⟨hf, hup, by rw [hlast]; rfl⟩

theorem joinGaps_cover (h : WCover a (pre ++ rp :: post) b) (hu : rp.u = .sample snr) (rp' : RrRef)
    (hu' : rp'.u = .range snr snr) : WCover a (joinGaps pre rp' post snr) b := by
  obtain ⟨c, hpre, hf, _, hpost⟩ := tiled_append.1 h
  rw [Ccref.first_of_sample hu] at hf
  rw [Ccref.last_of_sample hu] at hpost
  subst hf
  obtain ⟨h1, h2, h3⟩ := joinPrev_cover hpre hu'
  exact Tiled.append h1 (joinNext_cover rfl h2 h3 hpost)

theorem joinGaps_length (pre : List RrRef) (rp : RrRef) (post : List RrRef) (snr : Int) :
    (joinGaps pre rp post snr).length ≤ (pre ++ rp :: post).length := by
  have h1 : (joinPrev pre rp snr).1.length ≤ pre.length := by
    unfold joinPrev
    repeat' split
    all_goals simp
  have h2 : ∀ rp, (joinNext rp post).length ≤ post.length + 1 := by
    unfold joinNext
    repeat' split
    all_goals simp
  have := h2 (joinPrev pre rp snr).2
  simp only [joinGaps, length_append, length_cons]
  omega

/-! ## ACKNACK -/

theorem implicitGap_cover (h : WCover a p.changes.nodes b) (hb : b ≤ p.lastSeqnr + 1) (ap : AckNackSMsg) :
    ∃ a' b', WCover a' (p.implicitGap ap).changes.nodes b' ∧ b' ≤ p.lastSeqnr + 1 := by
  unfold implicitGap
  dsimp only
  split
  · split
    · rename_i tail ht
      have hend : p.listEnd = b := by
        rw [listEnd, ht]
        exact h.last_of_getLast? ht
      split
      · rename_i hr
        exact ⟨a, p.lastSeqnr + 1, h.growTail ht hr.1 hb tail.state, Int.le_refl _⟩
      · have hg := changeEnqueueGap_cover p.listEnd p.lastSeqnr (by rw [hend]; exact h) (by omega) .unsent
        refine ⟨a, p.lastSeqnr + 1, ?_, Int.le_refl _⟩
        split <;> exact hg
    · rename_i hn
      have hn' : p.changes.nodes = [] := by simpa using hn
      have hg := changeEnqueueGap_cover (p := p) (a := p.listEnd) p.listEnd p.lastSeqnr (by rw [hn']; rfl) (by omega)
        .unsent
      refine ⟨p.listEnd, p.lastSeqnr + 1, ?_, Int.le_refl _⟩
      split <;> exact hg
  · exact ⟨a, b, h, hb⟩

theorem implicitGap_extended (p : RemReader) (ap : AckNackSMsg) : Extended p (p.implicitGap ap) := by
  unfold implicitGap
  dsimp only
  split
  · split
    · rename_i tail ht
      split
      · exact ⟨rfl, rfl, fun h => withTail_counted h ht _⟩
      · split <;> exact ⟨rfl, rfl, fun h => addGapTail_counted h _ _ _⟩
    · split <;> exact ⟨rfl, rfl, fun h => addGapTail_counted h _ _ _⟩
  · exact .refl p

structure RangeWalk.Covers (w : RangeWalk) (a b : Int) : Prop where
  range : w.rp.relevant = false
  done : WCover a w.done w.rp.first
  upright : w.rp.first ≤ w.rp.last
  last : w.rp.last = b

namespace RangeWalk

theorem Covers.split {w : RangeWalk} (h : w.Covers a b) (hlt : w.rp.first < w.snr) (state : ChangeState) :
    (w.split state).Covers a b := by
  unfold RangeWalk.split
  split
  · exact ⟨h.range, h.done, h.upright, h.last⟩
  refine ⟨rfl, tiled_concat.2 ⟨h.done, ?_, ?_⟩, ?_, h.last⟩
  · show w.rp.first ≤ w.snr - 1
    omega
  · show w.snr - 1 + 1 = w.snr
    omega
  · show w.snr ≤ w.rp.last
    omega

/-- What holds before each bit: the walk is past the start of its node, or the bit continues what the node starts
with. -/
def Ready (w : RangeWalk) (bits : List Bool) : Prop :=
  w.rp.first < w.snr ∨ w.rp.first = w.snr ∧ bits.head? = some (!w.ackRange)

theorem split_snr (w : RangeWalk) (state : ChangeState) : (w.split state).snr = w.snr := by
  unfold RangeWalk.split
  split <;> rfl

theorem split_first (w : RangeWalk) (state : ChangeState) (hlt : w.rp.first < w.snr) :
    (w.split state).rp.first ≤ w.snr := by
  unfold RangeWalk.split
  split
  · exact Int.le_of_lt hlt
  · exact Int.le_refl _

theorem Covers.bit {w : RangeWalk} {set : Bool} (h : w.Covers a b)
    (hr : w.Ready (set :: rest)) : (w.bit set).Covers a b ∧ (w.bit set).rp.first < (w.bit set).snr := by
  have hnext : w.rp.first < w.snr + 1 := by rcases hr with hr | hr <;> omega
  have hbelow : w.ackRange = set → w.rp.first < w.snr := by
    rintro rfl
    rcases hr with hr | ⟨_, hr⟩
    · exact hr
    · simp at hr
  unfold RangeWalk.bit
  cases set with
  | true =>
    by_cases hack : w.ackRange = true
    · have hlt := hbelow hack
      have hs := h.split hlt .acked
      have hf := w.split_first .acked hlt
      have hsn := w.split_snr .acked
      simp only [hack, if_true]
      exact ⟨⟨hs.range, hs.done, hs.upright, hs.last⟩, by omega⟩
    · simp only [hack, if_true, Bool.false_eq_true, if_false]
      exact ⟨⟨h.range, h.done, h.upright, h.last⟩, hnext⟩
  | false =>
    by_cases hack : w.ackRange = true
    · simp only [hack, Bool.false_eq_true, if_false, if_true]
      exact ⟨⟨h.range, h.done, h.upright, h.last⟩, hnext⟩
    have hlt := hbelow (eq_false_of_ne_true hack)
    have hs := h.split hlt .requested
    have hf := w.split_first .requested hlt
    have hsn := w.split_snr .requested
    simp only [hack, Bool.false_eq_true, if_false]
    exact ⟨⟨hs.range, hs.done, hs.upright, hs.last⟩, by omega⟩

theorem Covers.bits : ∀ {bits : List Bool} {w : RangeWalk}, w.Covers a b →
    (bits = [] → w.rp.first < w.snr) → w.Ready bits →
    (w.bits bits).Covers a b ∧ (w.bits bits).rp.first < (w.bits bits).snr
  | [], w, h, hlt, _ => ⟨h, hlt rfl⟩
  | set :: rest, w, h, _, hr => by
    obtain ⟨hb, hlt⟩ := h.bit hr
    unfold RangeWalk.bits
    dsimp only
    split
    · exact ⟨hb, hlt⟩
    · exact hb.bits (fun _ => hlt) (.inl hlt)

theorem Covers.finish {w : RangeWalk} (h : w.Covers a b) (hlt : w.rp.first < w.snr) :
    WCover a w.finish.nodes (b + 1) := by
  have hend : ∀ {w : RangeWalk}, w.Covers a b → ∀ state, WCover a (w.done ++ [{ w.rp with state }]) (b + 1) := by
    intro w h state
    exact tiled_concat.2 ⟨h.done, h.upright, by rw [← h.last]; rfl⟩
  unfold RangeWalk.finish
  split
  · split
    · exact hend h _
    · exact hend (h.split hlt .acked) _
  · exact hend h _

end RangeWalk

theorem ackRangeNodes_cover (ap : AckNackSMsg) (nextAddr : Nat) (hr : rp.relevant = false) (hup : rp.first ≤ rp.last)
    (hlt : rp.first < ap.base + ap.bitmap.length) :
    WCover rp.first (ackRangeNodes ap nextAddr rp).nodes (rp.last + 1) := by
  have hstart : (RangeWalk.start ap nextAddr rp).Covers rp.first rp.last := ⟨hr, rfl, hup, rfl⟩
  have hready : (RangeWalk.start ap nextAddr rp).Ready (ap.bitmap.drop (rp.first - ap.base).toNat) := by
    by_cases hb : rp.first < ap.base
    · exact .inl (by simp only [RangeWalk.start]; omega)
    · refine .inr ⟨by simp only [RangeWalk.start]; omega, ?_⟩
      have hi : (rp.first - ap.base).toNat < ap.bitmap.length := by omega
      simp [RangeWalk.start, hb, head?_drop, getElem?_eq_getElem hi]
  have hempty : ap.bitmap.drop (rp.first - ap.base).toNat = [] →
      (RangeWalk.start ap nextAddr rp).rp.first < (RangeWalk.start ap nextAddr rp).snr := by
    intro he
    have := drop_eq_nil_iff.1 he
    simp only [RangeWalk.start]
    omega
  obtain ⟨hcov, hsn⟩ := hstart.bits hempty hready
  exact hcov.finish hsn

theorem ackNode_cover (ap : AckNackSMsg) (nextAddr : Nat) (hup : rp.first ≤ rp.last) :
    WCover rp.first (ackNode ap nextAddr rp).nodes (rp.last + 1) := by
  have hone : ∀ rp' : RrRef, rp'.u = rp.u → WCover rp.first [rp'] (rp.last + 1) := by
    intro rp' hu
    have hf : rp'.first = rp.first := by simp only [Ccref.first, hu]
    have hl : rp'.last = rp.last := by simp only [Ccref.last, hu]
    exact ⟨hf, by simp only [hf, hl]; exact hup, by rw [hl]; rfl⟩
  unfold ackNode
  split
  · exact hone rp rfl
  split
  · exact hone _ rfl
  split
  · split
    · split <;> exact hone _ rfl
    · rename_i hlt hr
      exact ackRangeNodes_cover ap nextAddr (by simpa using hr) hup hlt
  · exact hone rp rfl

theorem ackNodes_cover (ap : AckNackSMsg) : ∀ {nodes : List RrRef} (nextAddr : Nat) {a b : Int}, WCover a nodes b →
    WCover a (ackNodes ap nextAddr nodes).nodes b
  | [], _, _, _, h => h
  | rp :: rest, nextAddr, a, b, ⟨hf, hup, h⟩ => by
    have h1 := ackNode_cover ap nextAddr hup
    rw [hf] at h1
    exact Tiled.append h1 (ackNodes_cover ap _ h)

theorem ackNode_length (ap : AckNackSMsg) (nextAddr : Nat) (rp : RrRef) :
    1 ≤ (ackNode ap nextAddr rp).nodes.length := by
  have hfin : ∀ w : RangeWalk, 1 ≤ w.finish.nodes.length := by
    intro w
    unfold RangeWalk.finish
    repeat' split
    all_goals simp
  unfold ackNode
  repeat' split
  all_goals first | exact Nat.le_refl 1 | exact hfin _

theorem ackNodes_length (ap : AckNackSMsg) : ∀ (nodes : List RrRef) (nextAddr : Nat),
    nodes.length ≤ (ackNodes ap nextAddr nodes).nodes.length
  | [], _ => Nat.le_refl _
  | rp :: rest, nextAddr => by
    have h1 := ackNode_length ap nextAddr rp
    have h2 := ackNodes_length ap rest (ackNode ap nextAddr rp).nextAddr
    simp only [ackNodes, length_append, length_cons]
    omega

structure Popped (p q : RemReader) : Prop where
  nodes : q.changes.nodes = p.changes.nodes.dropWhile (·.state == .acked)
  counted : p.changes.Counted → q.changes.Counted
  lastSeqnr : q.lastSeqnr = p.lastSeqnr
  freed : q.freed = p.freed
  nextAddr : q.nextAddr = p.nextAddr

theorem removeAcked_popped : ∀ {nodes : List RrRef} {p q : RemReader}, p.changes.nodes = nodes →
    p.removeAcked nodes = some q → Popped p q
  | [], p, q, hn, h => by
    obtain rfl : p = q := some.inj h
    exact ⟨by simp [hn], id, rfl, rfl, rfl⟩
  | rp :: rest, p, q, hn, h => by
    unfold removeAcked at h
    split at h
    · rename_i hst
      obtain ⟨r, hr, h⟩ := bind_eq_some_iff.1 h
      obtain ⟨req, _, rfl⟩ := map_eq_some_iff.1 hr
      have ih := removeAcked_popped rfl h
      refine ⟨?_, fun hc => ih.counted ?_, ih.lastSeqnr, ih.freed, ih.nextAddr⟩
      · rw [ih.nodes, hn, dropWhile_cons_of_pos (by simp [hst])]
      · simp only [Counted, hn, length_cons] at hc ⊢
        omega
    · rename_i hst
      obtain rfl : p = q := some.inj h
      exact ⟨by rw [hn, dropWhile_cons_of_neg (by simpa using hst)], id, rfl, rfl, rfl⟩

structure SameList (p q : RemReader) : Prop where
  changes : q.changes = p.changes
  unsent : q.unsentChanges = p.unsentChanges
  requested : q.requestedChanges = p.requestedChanges
  nextAddr : q.nextAddr = p.nextAddr
  lastSeqnr : q.lastSeqnr = p.lastSeqnr
  freed : q.freed = p.freed

theorem SameList.refl (p : RemReader) : SameList p p := ⟨rfl, rfl, rfl, rfl, rfl, rfl⟩

theorem mustRepair_same (p : RemReader) : SameList p p.mustRepair := by
  unfold mustRepair
  split
  · dsimp only
    split <;> exact ⟨rfl, rfl, rfl, rfl, rfl, rfl⟩
  · exact .refl p

abbrev RemReader.looped (p : RemReader) (ap : AckNackSMsg) : RemReader :=
  { p with
    changes := ⟨(ackNodes ap p.nextAddr p.changes.nodes).nodes, p.changes.nchanges +
      ((ackNodes ap p.nextAddr p.changes.nodes).nodes.length - p.changes.nodes.length)⟩
    nextAddr := (ackNodes ap p.nextAddr p.changes.nodes).nextAddr
    requestedChanges := (ackNodes ap p.nextAddr p.changes.nodes).requested }

theorem ackUpdate_popped (hs : p.ackUpdate ap = some q) : Popped (p.looped ap).mustRepair q :=
  removeAcked_popped (by rw [(mustRepair_same _).changes]) hs

theorem ackUpdate_cover (h : WCover a p.changes.nodes b) (hs : p.ackUpdate ap = some q) :
    ∃ a', WCover a' q.changes.nodes b := by
  rw [(ackUpdate_popped hs).nodes, (mustRepair_same _).changes]
  exact (ackNodes_cover ap p.nextAddr h).dropWhile _

theorem ackUpdate_extended (hs : p.ackUpdate ap = some q) : Extended p q := by
  have hpop := ackUpdate_popped hs
  have hsame := mustRepair_same (p.looped ap)
  refine ⟨hpop.lastSeqnr.trans hsame.lastSeqnr, hpop.freed.trans hsame.freed, fun hcnt => hpop.counted ?_⟩
  have := ackNodes_length ap p.changes.nodes p.nextAddr
  simp only [Counted, hsame.changes] at hcnt ⊢
  omega

/-- The node `y` is `x` with another state: the same node of the pool with the same contents, not unsent anew. -/
structure Restated (x y : RrRef) : Prop where
  addr : y.addr = x.addr
  u : y.u = x.u
  unsent : y.state = .unsent → x.state = .unsent

theorem Restated.refl (x : RrRef) : Restated x x := ⟨rfl, rfl, id⟩

theorem restated_refl (nodes : List RrRef) : List.Forall₂ Restated nodes nodes :=
  forall₂_same.2 fun x _ => .refl x

theorem Restated.trans (h : Restated x y) (h' : Restated y z) : Restated x z :=
  ⟨h'.addr.trans h.addr, h'.u.trans h.u, fun hz => h.unsent (h'.unsent hz)⟩

theorem restated_trans : ∀ {l l' l'' : List RrRef}, List.Forall₂ Restated l l' → List.Forall₂ Restated l' l'' →
    List.Forall₂ Restated l l''
  | _, _, _, .nil, .nil => .nil
  | _, _, _, .cons h hl, .cons h' hl' => .cons (h.trans h') (restated_trans hl hl')

theorem Restated.underway (h : Restated x y) : Restated x { y with state := .underway } := ⟨h.addr, h.u, nofun⟩

theorem sendNode_restated (tx : Int → TxRes) (gap : Option GapInfo) (rp : RrRef) :
    Restated rp (sendNode tx gap rp).node ∧ (sendNode tx gap rp).node.state = .underway := by
  unfold sendNode
  repeat' split
  all_goals first | exact ⟨⟨rfl, rfl, by rintro ⟨⟩⟩, rfl⟩ | exact ⟨.refl _, by assumption⟩

theorem pushPass_restated (tx : Int → TxRes) : ∀ (gap : Option GapInfo) (nodes : List RrRef),
    List.Forall₂ Restated nodes (pushPass tx gap nodes).nodes
  | _, [] => .nil
  | gap, rp :: rest => by
    unfold pushPass
    dsimp only
    split
    · exact .cons (sendNode_restated tx gap rp).1 (restated_refl rest)
    · exact .cons (sendNode_restated tx gap rp).1 (pushPass_restated tx _ rest)

theorem repairPass_restated (tx : Int → TxRes) : ∀ (started : Bool) (gap : Option GapInfo) (nodes : List RrRef),
    List.Forall₂ Restated nodes (repairPass tx started gap nodes).1.nodes
  | _, _, [] => .nil
  | started, gap, rp :: rest => by
    unfold repairPass
    dsimp only
    split
    · exact .cons (.refl rp) (repairPass_restated tx started gap rest)
    split
    · refine .cons ?_ (repairPass_restated tx started gap rest)
      split
      · exact .refl rp
      · exact (Restated.refl rp).underway
    obtain ⟨x, hx, hr⟩ : ∃ x, (if passesFragments rest then { rp with state := .underway } else rp) = x ∧
        Restated rp x := by
      refine ⟨_, rfl, ?_⟩
      split
      · exact (Restated.refl rp).underway
      · exact .refl rp
    rw [hx]
    have hsent := hr.trans (sendNode_restated tx gap x).1
    split
    · exact .cons hsent (restated_refl rest)
    · exact .cons hsent (repairPass_restated tx true _ rest)

theorem fragmentsUnderway_restated (nodes : List RrRef) : List.Forall₂ Restated nodes (fragmentsUnderway nodes) := by
  unfold fragmentsUnderway
  rw [forall₂_map_right_iff, forall₂_same]
  intro rp _
  split
  · exact (Restated.refl rp).underway
  · exact .refl rp

theorem sfwRelSendAlive_same (p : RemReader) (snrMin : Int) : SameList p (p.sfwRelSendAlive snrMin).1 := by
  unfold sfwRelSendAlive
  repeat' split
  all_goals exact ⟨rfl, rfl, rfl, rfl, rfl, rfl⟩

theorem timeout_sameList (p : RemReader) (cached : Cached) : SameList p (p.timeout cached).1 := by
  unfold RemReader.timeout
  split
  · exact sfwRelSendAlive_same p _
  · exact ⟨rfl, rfl, rfl, rfl, rfl, rfl⟩
  · exact .refl p

theorem sfwRelAcknack_cases (hs : p.sfwRelAcknack rhTimer cached ap final = some (q, msgs)) :
    q = p ∨ ∃ r, SameList p r ∧ (SameList r q ∨ (r.durable = true ∧ q = r.sfwRestart rhTimer cached) ∨
      ∃ t, (r.implicitGap ap).ackUpdate ap = some t ∧ SameList t q) := by
  unfold sfwRelAcknack at hs
  split at hs
  · cases hs
    exact .inl rfl
  refine .inr ?_
  extract_lets wakeup woken alive r n at hs
  have hr : SameList p r := by
    simp only [r, woken]
    split <;> exact ⟨rfl, rfl, rfl, rfl, rfl, rfl⟩
  refine ⟨r, hr, ?_⟩
  split at hs
  · rw [← (mk.inj (some.inj hs)).1]
    exact .inl ⟨rfl, rfl, rfl, rfl, rfl, rfl⟩
  split at hs
  · refine .inl ?_
    split at hs
    · have hq : (r.sfwRelSendAlive (r.snrMin cached)).1 = q := congrArg fst (some.inj hs)
      rw [← hq]
      exact sfwRelSendAlive_same r _
    · rw [← (mk.inj (some.inj hs)).1]
      exact .refl r
  split at hs
  · rename_i hd
    exact .inr (.inl ⟨hd.2, (mk.inj (some.inj hs)).1.symm⟩)
  obtain ⟨t, ht, he⟩ := map_eq_some_iff.1 hs
  refine .inr (.inr ⟨t, ht, ?_⟩)
  rw [← (mk.inj he).1]
  split
  · exact ⟨rfl, rfl, rfl, rfl, rfl, rfl⟩
  · exact .refl t

structure PassedOver (p q : RemReader) : Prop where
  nodes : List.Forall₂ Restated p.changes.nodes q.changes.nodes
  nchanges : q.changes.nchanges = p.changes.nchanges
  lastSeqnr : q.lastSeqnr = p.lastSeqnr
  freed : q.freed = p.freed
  nextAddr : q.nextAddr = p.nextAddr

theorem PassedOver.of_eq (hc : q.changes = p.changes) (hl : q.lastSeqnr = p.lastSeqnr) (hf : q.freed = p.freed)
    (hn : q.nextAddr = p.nextAddr) : PassedOver p q :=
  ⟨by rw [hc]; exact restated_refl _, by rw [hc], hl, hf, hn⟩

theorem span_pushPass_restated (tx : Int → TxRes) (h : nodes.span (·.addr != u) = (pre, post)) :
    List.Forall₂ Restated nodes (pre ++ (pushPass tx none post).nodes) := by
  rw [span_eq_takeWhile_dropWhile] at h
  obtain ⟨h1, h2⟩ := mk.inj h
  have hn : nodes = pre ++ post := by rw [← h1, ← h2, takeWhile_append_dropWhile]
  rw [hn]
  exact rel_append (restated_refl pre) (pushPass_restated tx none post)

theorem sfwRelSendData_passedOver {active b : Bool}
    (h : p.sfwRelSendData active tx = some (q, msgs, b)) : PassedOver p q := by
  unfold sfwRelSendData at h
  dsimp only at h
  split at h
  · cases h
    exact .of_eq rfl rfl rfl rfl
  split at h
  · split at h
    · cases h
      exact .of_eq rfl rfl rfl rfl
    split at h
    · cases h
    · rename_i hspan
      have hr := span_pushPass_restated tx hspan
      split at h <;> cases h <;> exact ⟨hr, rfl, rfl, rfl, rfl⟩
  split at h
  · have hr := repairPass_restated tx false none p.changes.nodes
    have hf := fragmentsUnderway_restated (repairPass tx false none p.changes.nodes).1.nodes
    repeat' split at h
    all_goals cases h
    on_goal 4 => exact ⟨restated_trans hr hf, rfl, rfl, rfl, rfl⟩
    all_goals exact ⟨hr, rfl, rfl, rfl, rfl⟩
  · cases h
    exact .of_eq rfl rfl rfl rfl

/-! ## Runs -/

structure RemReader.RangeOk (p : RemReader) : Prop where
  contiguous : p.changes.nodes.IsChain fun x y => y.first = x.last + 1
  ascending : ∀ rp ∈ p.changes.nodes, rp.first ≤ rp.last
  counted : p.changes.Counted
  /-- What `sfw_rel_rem_change` took for a sample was the sample of the change it removed. -/
  freed : ∀ c ∈ p.freed, c.1 = .sample c.2

structure WriterInv (p : RemReader) : Prop where
  counted : p.changes.Counted
  cover : ∃ a b, WCover a p.changes.nodes b ∧ b ≤ p.lastSeqnr + 1
  freed : ∀ c ∈ p.freed, c.1 = .sample c.2

section
variable (h : WriterInv p)
include h

theorem WriterInv.rangeOk : p.RangeOk := by
  obtain ⟨a, b, hcov, _⟩ := h.cover
  exact ⟨hcov.isChain, fun rp hrp => hcov.all rp hrp, h.counted, h.freed⟩

theorem WriterInv.of_eq (hc : q.changes = p.changes) (hl : q.lastSeqnr = p.lastSeqnr)
    (hf : q.freed = p.freed) : WriterInv q :=
  ⟨by rw [hc]; exact h.counted, by rw [hc, hl]; exact h.cover, by rw [hf]; exact h.freed⟩

theorem WriterInv.of_same (hs : SameList p q) : WriterInv q :=
  h.of_eq hs.changes hs.lastSeqnr hs.freed

theorem WriterInv.of_passedOver (hp : PassedOver p q) : WriterInv q := by
  obtain ⟨a, b, hcov, hb⟩ := h.cover
  refine ⟨?_, ⟨a, b, hcov.congr (hp.nodes.imp fun x y hxy => ?_), by rw [hp.lastSeqnr]; exact hb⟩, by
    rw [hp.freed]; exact h.freed⟩
  · have := h.counted
    unfold Counted at this ⊢
    rw [hp.nchanges, this, hp.nodes.length_eq]
  · simp [Ccref.first, Ccref.last, hxy.u, and_self]

theorem WriterInv.of_extended (he : Extended p q)
    (hcov : ∃ a b, WCover a q.changes.nodes b ∧ b ≤ p.lastSeqnr + 1) : WriterInv q :=
  ⟨he.counted h.counted, by rw [he.lastSeqnr]; exact hcov, by rw [he.freed]; exact h.freed⟩

end

theorem WriterInv.replay (hn : p.changes = .empty) (hf : ∀ c ∈ p.freed, c.1 = .sample c.2)
    (hv : cached.Valid p.lastSeqnr) (rhTimer : Bool) : WriterInv (p.replay rhTimer cached) := by
  have hb : (cached.head?.map (·.1)).getD (p.lastSeqnr + 1) ≤ p.lastSeqnr + 1 := by
    cases cached with
    | nil => exact Int.le_refl _
    | cons c _ =>
      have := hv.2 c (by simp)
      show c.1 ≤ p.lastSeqnr + 1
      omega
  have hempty : WriterInv p := ⟨by rw [hn]; rfl, ⟨p.lastSeqnr + 1, _, by rw [hn]; rfl, Int.le_refl _⟩, hf⟩
  refine hempty.of_extended (replay_extended rhTimer cached p) ?_
  refine replay_cover rhTimer (a := (cached.head?.map (·.1)).getD (p.lastSeqnr + 1)) hv.1 hv.2 (fun c hc => ?_)
    (by rw [hn]; rfl) hb
  rw [hc]
  exact Int.le_refl _

theorem WriterInv.sfwRelReset (h : WriterInv p) (hv : cached.Valid p.lastSeqnr) (rhTimer : Bool) :
    WriterInv (p.sfwRelReset rhTimer cached) := by
  unfold RemReader.sfwRelReset
  dsimp only
  obtain ⟨q, hq, hinv⟩ : ∃ q, q = (if p.durable then
        { p with tstate := .idle, astate := .waiting, newSnr := 1, peerAlive := false, unsentChanges := none,
                 requestedChanges := none, changes := .empty }.replay rhTimer cached
      else
        { p with
          tstate := .idle, astate := .waiting, newSnr := 0, peerAlive := false, requestedChanges := none
          changes := ⟨p.changes.nodes.map fun rp => if inTransit rp.state then { rp with state := .unsent } else rp,
            p.changes.nchanges⟩
          unsentChanges := (p.changes.nodes.find? fun rp => inTransit rp.state).map (·.addr) }) ∧ WriterInv q := by
    refine ⟨_, rfl, ?_⟩
    split
    · apply WriterInv.replay
      · rfl
      · exact h.freed
      · exact hv
    · obtain ⟨a, b, hcov, hb⟩ := h.cover
      refine ⟨by simpa [Counted] using h.counted, ⟨a, b, hcov.congr ?_, hb⟩, h.freed⟩
      refine forall₂_map_right_iff.2 (forall₂_same.2 fun rp _ => ?_)
      split <;> exact ⟨rfl, rfl, id⟩
  rw [← hq]
  split
  · exact hinv.of_eq rfl rfl rfl
  · exact hinv

theorem WriterInv.sfwRelAcknack
    (h : WriterInv p) (hv : cached.Valid p.lastSeqnr) (hs : p.sfwRelAcknack rhTimer cached ap final = some (q, msgs)) :
    WriterInv q := by
  rcases sfwRelAcknack_cases hs with rfl | ⟨r, hr, hs | ⟨_, rfl⟩ | ⟨t, ht, hs⟩⟩
  · exact h
  · exact (h.of_same hr).of_same hs
  · rw [← hr.lastSeqnr] at hv
    exact (h.of_same hr).sfwRelReset hv rhTimer
  have hgap := implicitGap_extended r ap
  obtain ⟨a, b, hcov, hb⟩ := (h.of_same hr).cover
  obtain ⟨a', b', hcov', hb'⟩ := implicitGap_cover hcov hb ap
  have hg : WriterInv (r.implicitGap ap) := (h.of_same hr).of_extended hgap ⟨a', b', hcov', hb'⟩
  refine (hg.of_extended (ackUpdate_extended ht) ?_).of_same hs
  rw [hgap.lastSeqnr]
  obtain ⟨a'', h''⟩ := ackUpdate_cover hcov' ht
  exact ⟨a'', b', h'', hb'⟩

def HoldsSample (nodes : List RrRef) (snr : Int) : Prop := ∀ rp ∈ nodes, holds rp snr → rp.relevant

instance (nodes : List RrRef) (snr : Int) : Decidable (HoldsSample nodes snr) := by unfold HoldsSample; infer_instance

theorem findChange_sample (h : findChange nodes snr = some (pre, rp, post)) (hs : HoldsSample nodes snr) :
    nodes = pre ++ rp :: post ∧ rp.u = .sample snr := by
  obtain ⟨hn, hf, hl⟩ := findChange_some h
  refine ⟨hn, ?_⟩
  obtain ⟨s, hu⟩ := Ccref.exists_sample (hs rp (by simp [hn]) (by simp [holds, hf, hl]))
  rw [Ccref.first_of_sample hu] at hf
  rw [Ccref.last_of_sample hu] at hl
  rw [hu, show s = snr by omega]

theorem WriterInv.sfwRelRemChange (h : WriterInv p) (hs : HoldsSample p.changes.nodes snr) :
    WriterInv (p.sfwRelRemChange snr) := by
  unfold RemReader.sfwRelRemChange
  split
  · exact h
  rename_i pre rp post hfind
  obtain ⟨hn, hu⟩ := findChange_sample hfind hs
  obtain ⟨a, b, hcov, hb⟩ := h.cover
  rw [hn] at hcov
  obtain ⟨a', hcov'⟩ := Tiled.dropWhile (!·.relevant)
    (joinGaps_cover hcov hu { rp with fragments := false, u := .range snr snr } rfl)
  refine ⟨?_, ⟨a', b, hcov', hb⟩, fun c hc => ?_⟩
  · have hlen := joinGaps_length pre { rp with fragments := false, u := .range snr snr } post snr
    have hdrop := (dropWhile_sublist (!·.relevant)
      (l := joinGaps pre { rp with fragments := false, u := .range snr snr } post snr)).length_le
    have hcount := h.counted
    simp only [Counted, hn, length_append, length_cons] at hcount hlen ⊢
    omega
  · rcases mem_append.1 hc with hc | hc
    · exact h.freed c hc
    · rw [mem_singleton.1 hc]
      exact hu

def KeepsSamples (p : RemReader) : WriterEvent → Prop
  | .remChange snr => HoldsSample p.changes.nodes snr
  | _ => True

instance KeepsSamples.decidable (p : RemReader) : (e : WriterEvent) → Decidable (KeepsSamples p e)
  | .remChange snr => inferInstanceAs (Decidable (HoldsSample p.changes.nodes snr))
  | .newChange .. | .acknack .. | .sendData .. | .restart .. | .timeout .. => isTrue trivial

theorem WriterInv.step (h : WriterInv p) (hv : e.Valid p) (hk : KeepsSamples p e)
    (hs : p.step e = some q) : WriterInv q := by
  cases e with
  | newChange snr res rhTimer =>
    cases hs
    have hlt : p.lastSeqnr < snr := hv
    obtain ⟨a, b, hcov, hb⟩ := h.cover
    have hset : WriterInv { p with lastSeqnr := snr } := ⟨h.counted, ⟨a, b, hcov, by simp only; omega⟩, h.freed⟩
    exact hset.of_extended (proxyAddChange_extended _ _ _)
      (proxyAddChange_cover (p := { p with lastSeqnr := snr }) (c := (snr, res)) hcov (by omega) rhTimer)
  | remChange snr =>
    cases hs
    exact h.sfwRelRemChange hk
  | acknack ap final rhTimer cached =>
    obtain ⟨r, hr, rfl⟩ := map_eq_some_iff.1 hs
    exact h.sfwRelAcknack hv.2 hr
  | sendData active tx =>
    obtain ⟨r, hr, rfl⟩ := map_eq_some_iff.1 hs
    exact h.of_passedOver (sfwRelSendData_passedOver hr)
  | restart rhTimer cached =>
    cases hs
    exact h.sfwRelReset hv rhTimer
  | timeout cached =>
    cases hs
    exact h.of_same (timeout_sameList p cached)

theorem WriterInv.start (hv : cached.Valid last) (pushMode durable : Bool) (delay : Nat)
    (rhTimer : Bool) : WriterInv (sfwRelStart pushMode durable delay rhTimer cached last) := by
  unfold sfwRelStart
  extract_lets p0 p
  have hp : WriterInv p := by
    simp only [p]
    split
    · apply WriterInv.replay
      · rfl
      · nofun
      · exact hv
    · exact ⟨rfl, ⟨last + 1, last + 1, rfl, Int.le_refl _⟩, nofun⟩
  split
  · exact hp.of_eq rfl rfl rfl
  · exact hp

/-- **The writer's change list.**  In every run in which changes are removed as `KeepsSamples` says, the list of a
reader proxy is a contiguous ascending cover, and only samples are freed, each for its own number. -/
theorem writer_rangeOk_of_run {cached : Cached} {last : Int} {pushMode durable rhTimer : Bool} {delay : Nat}
    {es : List WriterEvent} (hv : cached.Valid last)
    (h : Run RemReader.step (fun p e => e.Valid p ∧ KeepsSamples p e)
      (sfwRelStart pushMode durable delay rhTimer cached last) es p) : p.RangeOk :=
  (h.invariant (fun _ p => WriterInv p) (WriterInv.start hv pushMode durable delay rhTimer)
    fun _ _ _ _ hi hok hs => hi.step hok.1 hok.2 hs).rangeOk

/-- A durable proxy that starts with a sample and a filtered change, gets one more of each, sends them, has some of the
filtered ones asked for again, and loses the second sample. -/
theorem writer_rangeOk_durable :
    ((exec RemReader.step (fun p e => e.Valid p ∧ KeepsSamples p e)
      (sfwRelStart true true 0 true [(1, .allow), (2, .filtered)] 2)
      [.acknack ⟨0, [], 1⟩ true true [], .newChange 3 .filtered true, .newChange 4 .allow true,
        .sendData true fun _ => ⟨true, false, false⟩, .acknack ⟨1, [false, true, false], 2⟩ true true [],
        .remChange 4]).get (by decide)).RangeOk :=
  writer_rangeOk_of_run (show Cached.Valid [(1, .allow), (2, .filtered)] 2 by decide) (Run.of_isSome _)

/-- **The condition is needed.**  Changes 2, 3 and 4 are filtered out for the reader, and 3 is removed from the cache.
-/
theorem writer_rangeOk_broken :
    ∃ es p, Run RemReader.step (fun p e => e.Valid p) (sfwRelStart true false 0 false [] 0) es p ∧
      p.freed = [(.range 2 4, 3)] ∧ p.changes.nodes.map (·.u) = [.sample 1, .range 3 3, .sample 5] ∧ ¬ p.RangeOk :=
  ⟨[.newChange 1 .allow true, .newChange 2 .filtered true, .newChange 3 .filtered true, .newChange 4 .filtered true,
    .newChange 5 .allow true, .remChange 3], _, Run.of_isSome, by decide, by decide,
    fun h => absurd (h.freed (.range 2 4, 3) (by decide)) (by decide)⟩

end Qeo.Rtps
