import QeoCore.SfrwRange
import QeoCore.StateAt
/-!
# SfrwAcks — an ACKNACK, number by number

`sfw_rel_acknack` walks the change list and the bitmap at once and splits ranges on the way.  What it does to a sequence
number is what the message says of that number.
-/
namespace Qeo.Rtps

def AckNackSMsg.Confirms (ap : AckNackSMsg) (s : Int) : Prop :=
  s < ap.base ∨ s < ap.base + ap.bitmap.length ∧ seqnrInset s ap = false

open AckNackSMsg Ccref

def AckNackSMsg.Requests (ap : AckNackSMsg) (s : Int) : Prop :=
  ap.base ≤ s ∧ s < ap.base + ap.bitmap.length ∧ seqnrInset s ap = true

theorem AckNackSMsg.Requests.not_confirms {ap : AckNackSMsg} (h : ap.Requests s) : ¬ ap.Confirms s := by
  obtain ⟨h1, _, h3⟩ := h
  rintro (hc | ⟨_, hc⟩)
  · omega
  · rw [h3] at hc
    cases hc

/-- What becomes of the number `s`, of which a list said `e` before and says `e'` now. -/
structure AckNackSMsg.Settles (ap : AckNackSMsg) (s : Int) (e e' : Bool × ChangeState) : Prop where
  relevant : e'.1 = e.1
  acked : e'.2 = .acked ↔ e.2 = .acked ∨ ap.Confirms s
  requested : e.2 ≠ .acked → ap.Requests s → e'.2 = .requested
  kept : e.1 = true → ap.base + ap.bitmap.length ≤ s → e'.2 = e.2

section

variable {ap : AckNackSMsg} {s : Int} {r : Bool} {st : ChangeState}

theorem settles_acked (hc : ap.Confirms s) : ap.Settles s (r, st) (r, .acked) where
  relevant := rfl
  acked := ⟨fun _ => .inr hc, fun _ => rfl⟩
  requested _ hr := absurd hc hr.not_confirms
  kept _ hle := by
    unfold Confirms at hc
    omega

theorem settles_requested (hst : st ≠ .acked) (hr : ap.Requests s) : ap.Settles s (r, st) (r, .requested) where
  relevant := rfl
  acked := ⟨nofun, fun h => absurd h (not_or.2 ⟨hst, hr.not_confirms⟩)⟩
  requested _ _ := rfl
  kept _ hle := by
    unfold Requests at hr
    omega

theorem settles_behind (hst : st ≠ .acked) (hle : ap.base + ap.bitmap.length ≤ s)
    (hst' : st' = st ∨ r = false ∧ st' = .requested) : ap.Settles s (r, st) (r, st') where
  relevant := rfl
  acked := by
    constructor
    · rcases hst' with rfl | ⟨_, rfl⟩
      · exact .inl
      · intro h
        cases h
    · rintro (h | h)
      · exact absurd h hst
      · unfold Confirms at h
        omega
  requested _ hr := by
    unfold Requests at hr
    omega
  kept hrel _ := by
    rcases hst' with rfl | ⟨hf, _⟩
    · rfl
    · rw [show r = true from hrel] at hf
      cases hf

theorem settles_done (ap : AckNackSMsg) (s : Int) (r : Bool) : ap.Settles s (r, .acked) (r, .acked) where
  relevant := rfl
  acked := ⟨fun _ => .inl rfl, fun _ => rfl⟩
  requested h := absurd rfl h
  kept _ _ := rfl

end

/-! ## The walk over a range -/

/-- The walk over a range in state `st`: what is split off is settled, and so far the node it is at is all confirmed
(`ack_range`) or all requested. -/
structure RangeWalk.Settled (w : RangeWalk) (ap : AckNackSMsg) (st : ChangeState) : Prop where
  done : ∀ rp ∈ w.done, ∀ s, rp.Holds s → ap.Settles s (false, st) (rp.relevant, rp.state)
  range : w.rp.relevant = false
  state : w.rp.state = st
  base : ap.base ≤ w.snr
  confirmed : w.ackRange = true → ∀ s, w.rp.first ≤ s → s < w.snr → ap.Confirms s
  requested : w.ackRange = false → ∀ s, w.rp.first ≤ s → s < w.snr → ap.Requests s

variable {ap : AckNackSMsg} {st : ChangeState} {w : RangeWalk}

theorem RangeWalk.Settled.split (h : w.Settled ap st) (hle : w.snr ≤ w.rp.last) {state : ChangeState}
    (hfront : ∀ s, w.rp.first ≤ s → s < w.snr → ap.Settles s (false, st) (false, state)) (ack : Bool)
    (req : Option Nat) :
    ({ w.split state with ackRange := ack, requested := req } : RangeWalk).Settled ap st ∧
      (w.split state).rp.first = w.snr ∧ (w.split state).rp.last = w.rp.last := by
  rw [RangeWalk.split, if_neg (by omega)]
  refine ⟨⟨?_, rfl, h.state, h.base, ?_, ?_⟩, rfl, rfl⟩
  · intro rp hm s hs
    rcases List.mem_append.1 hm with hm | hm
    · exact h.done rp hm s hs
    · obtain rfl := List.mem_singleton.1 hm
      exact hfront s hs.1 (by have : s ≤ w.snr - 1 := hs.2; omega)
  all_goals
    intro _ s h1 h2
    have h1' : w.snr ≤ s := h1
    have h2' : s < w.snr := h2
    omega

theorem RangeWalk.Settled.next (h : w.Settled ap st)
    (hnow : if w.ackRange then ap.Confirms w.snr else ap.Requests w.snr) :
    ({ w with snr := w.snr + 1 } : RangeWalk).Settled ap st := by
  refine ⟨h.done, h.range, h.state, by have := h.base; show ap.base ≤ w.snr + 1; omega, ?_, ?_⟩ <;>
    intro hack s h1 h2
  · rcases Int.lt_or_eq_of_le (Int.lt_add_one_iff.1 h2) with h2 | rfl
    · exact h.confirmed hack s h1 h2
    · rw [show w.ackRange = true from hack] at hnow
      exact hnow
  · rcases Int.lt_or_eq_of_le (Int.lt_add_one_iff.1 h2) with h2 | rfl
    · exact h.requested hack s h1 h2
    · rw [show w.ackRange = false from hack] at hnow
      exact hnow

theorem RangeWalk.Settled.bit (h : w.Settled ap st) (hst : st ≠ .acked) (hle : w.snr ≤ w.rp.last) {set : Bool}
    (hset : seqnrInset w.snr ap = set) (hlt : w.snr < ap.base + ap.bitmap.length) :
    (w.bit set).Settled ap st ∧ (w.bit set).snr = w.snr + 1 ∧ (w.bit set).rp.last = w.rp.last := by
  have hbase := h.base
  unfold RangeWalk.bit
  cases set with
  | true =>
    have hnow : ap.Requests w.snr := ⟨hbase, hlt, hset⟩
    by_cases hack : w.ackRange = true
    · simp only [hack, if_true]
      obtain ⟨hs, _, hl⟩ :=
        h.split hle (fun s h1 h2 => settles_acked (h.confirmed hack s h1 h2)) false (w.split .acked).requested
      have hsn := w.split_snr .acked
      exact ⟨hs.next (by simpa [hsn] using hnow), by rw [hsn], hl⟩
    · rw [if_neg hack]
      exact ⟨h.next (by rw [if_neg hack]; exact hnow), rfl, rfl⟩
  | false =>
    have hnow : ap.Confirms w.snr := .inr ⟨hlt, hset⟩
    by_cases hack : w.ackRange = true
    · rw [if_neg (by decide), if_pos hack]
      exact ⟨h.next (by rw [if_pos hack]; exact hnow), rfl, rfl⟩
    simp only [hack, Bool.false_eq_true, if_false]
    have hack' : w.ackRange = false := by simpa using hack
    obtain ⟨hs, _, hl⟩ :=
      h.split hle (fun s h1 h2 => settles_requested hst (h.requested hack' s h1 h2)) true
        (w.requested.or (some w.rp.addr))
    have hsn := w.split_snr .requested
    exact ⟨hs.next (by simpa [hsn] using hnow), by rw [hsn], hl⟩

/-- **The loop over the bits settles what it passes**, to the end of the range or of the bitmap. -/
theorem RangeWalk.Settled.bits (hst : st ≠ .acked) : ∀ {bits : List Bool} {w : RangeWalk}, w.Settled ap st →
    w.snr ≤ w.rp.last → bits = ap.bitmap.drop (w.snr - ap.base).toNat →
    (w.bits bits).Settled ap st ∧
      ((w.bits bits).rp.last < (w.bits bits).snr ∨ ap.base + ap.bitmap.length ≤ (w.bits bits).snr)
  | [], w, h, _, hb => by
    have hb' : ap.bitmap.length ≤ (w.snr - ap.base).toNat := List.drop_eq_nil_iff.1 hb.symm
    have hbase := h.base
    exact ⟨h, .inr (by simp only [RangeWalk.bits]; omega)⟩
  | set :: rest, w, h, hle, hb => by
    have hbase := h.base
    have hat : ap.bitmap[(w.snr - ap.base).toNat]? = some set := by rw [← List.head?_drop, ← hb, List.head?_cons]
    have hlen : (w.snr - ap.base).toNat < ap.bitmap.length := (List.getElem?_eq_some_iff.1 hat).1
    have hset : seqnrInset w.snr ap = set := by rw [seqnrInset, List.getD_eq_getElem?_getD, hat, Option.getD_some]
    obtain ⟨hbit, hsn, hl⟩ := h.bit hst hle hset (by omega)
    rw [RangeWalk.bits]
    split
    · rename_i hend
      exact ⟨hbit, .inl hend⟩
    · refine bits hst hbit (by omega) ?_
      rw [hsn, show (w.snr + 1 - ap.base).toNat = (w.snr - ap.base).toNat + 1 by omega, ← List.tail_drop, ← hb,
        List.tail_cons]

theorem RangeWalk.Settled.finish (h : w.Settled ap st) (hst : st ≠ .acked)
    (hend : w.rp.last < w.snr ∨ ap.base + ap.bitmap.length ≤ w.snr) :
    ∀ rp ∈ w.finish.nodes, ∀ s, rp.Holds s → ap.Settles s (false, st) (rp.relevant, rp.state) := by
  -- The last node of the list is the one the walk is at, in whatever state it ends.
  have hlast : ∀ (w : RangeWalk) (state : ChangeState), w.Settled ap st →
      (∀ s, w.rp.Holds s → ap.Settles s (false, st) (false, state)) →
      ∀ rp ∈ w.done ++ [{ w.rp with state }], ∀ s, rp.Holds s → ap.Settles s (false, st) (rp.relevant, rp.state) := by
    intro w state h hs rp hm s hh
    rcases List.mem_append.1 hm with hm | hm
    · exact h.done rp hm s hh
    obtain rfl := List.mem_singleton.1 hm
    have hrel : ({ w.rp with state } : RrRef).relevant = false := h.range
    rw [hrel]
    exact hs s hh
  unfold RangeWalk.finish
  split
  · rename_i hack
    split
    · exact hlast w .acked h fun s hs => settles_acked (h.confirmed hack s hs.1 (by omega))
    obtain ⟨hs, hf, _⟩ := h.split (by omega) (fun s h1 h2 => settles_acked (h.confirmed hack s h1 h2)) true w.requested
    refine hlast (w.split .acked) (w.split .acked).rp.state
      ⟨hs.done, hs.range, hs.state, hs.base, ?_, ?_⟩ ?_
    all_goals first
      | exact fun s hh => settles_behind hst (by omega) (.inl hs.state)
      | (intro _ s h1 h2
         rw [w.split_snr] at h2
         omega)
  · rename_i hack
    have hack' : w.ackRange = false := by simpa using hack
    refine hlast w .requested h fun s hs => ?_
    by_cases hlt : s < w.snr
    · exact settles_requested hst (h.requested hack' s hs.1 hlt)
    · exact settles_behind hst (by omega) (.inr ⟨rfl, rfl⟩)

/-! ## The list -/

theorem ackRangeNodes_settles (hr : rp.relevant = false) (hst : rp.state ≠ .acked)
    (hup : rp.first ≤ rp.last) (hbase : ap.base ≤ rp.last) (n : Nat) :
    ∀ y ∈ (ackRangeNodes ap n rp).nodes, ∀ s, y.Holds s → ap.Settles s (false, rp.state) (y.relevant, y.state) := by
  have hstart : (RangeWalk.start ap n rp).Settled ap rp.state := by
    refine ⟨by simp [RangeWalk.start], hr, rfl, Int.le_max_right _ _, ?_, ?_⟩
    all_goals
      intro hack s h1 h2
      have h1' : rp.first ≤ s := h1
      have h2' : s < max rp.first ap.base := h2
    · exact .inl (by omega)
    have hack' : (if rp.first < ap.base then true else !(ap.bitmap.getD (rp.first - ap.base).toNat false)) = false :=
      hack
    rw [if_pos (by omega)] at hack'
    cases hack'
  have hbits : ap.bitmap.drop (rp.first - ap.base).toNat =
      ap.bitmap.drop ((RangeWalk.start ap n rp).snr - ap.base).toNat := by
    rw [show ((RangeWalk.start ap n rp).snr - ap.base).toNat = (rp.first - ap.base).toNat by
      simp only [RangeWalk.start]; omega]
  obtain ⟨hs, hend⟩ := hstart.bits hst (by simp only [RangeWalk.start]; omega) hbits
  exact hs.finish hst hend

theorem ackNode_settles (ap : AckNackSMsg) (hup : rp.first ≤ rp.last) (n : Nat) :
    ∀ y ∈ (ackNode ap n rp).nodes, ∀ s, y.Holds s → ap.Settles s (rp.relevant, rp.state) (y.relevant, y.state) := by
  -- All but a range that overlaps with the bitmap stay one node.
  have hone : ∀ {x : RrRef}, x.u = rp.u →
      (∀ s, rp.Holds s → ap.Settles s (rp.relevant, rp.state) (rp.relevant, x.state)) →
      ∀ y ∈ [x], ∀ s, y.Holds s → ap.Settles s (rp.relevant, rp.state) (y.relevant, y.state) := by
    intro x hu hs y hm s hh
    obtain rfl := List.mem_singleton.1 hm
    rw [show y.relevant = rp.relevant by simp only [relevant, hu]]
    exact hs s (by simpa only [Holds, first, last, hu] using hh)
  unfold ackNode
  split
  · rename_i hst
    exact hone rfl fun s _ => by rw [hst]; exact settles_done ap s _
  rename_i hst
  split
  · exact hone rfl fun s hs => settles_acked (.inl (by omega))
  split
  · rename_i hlast hfirst
    by_cases hr : rp.relevant = true
    · obtain ⟨c, hu⟩ := exists_sample hr
      have hf := first_of_sample hu
      have hl := last_of_sample hu
      have hc : ∀ s, rp.Holds s → s = rp.first := by omega
      rw [if_pos hr]
      split
      · rename_i hin
        exact hone rfl fun s hs => settles_requested hst (by rw [hc s hs]; exact ⟨by omega, hfirst, hin⟩)
      · rename_i hin
        exact hone rfl fun s hs => settles_acked (by rw [hc s hs]; exact .inr ⟨hfirst, by simpa using hin⟩)
    · rw [if_neg hr]
      have hr' : rp.relevant = false := by simpa using hr
      rw [hr']
      exact ackRangeNodes_settles hr' hst hup (by omega) n
  · exact hone rfl fun s hs => settles_behind hst (by omega) (.inl rfl)

theorem ackNodes_settles (ap : AckNackSMsg) : ∀ {nodes : List RrRef} (n : Nat) {a b : Int}, Contiguous a nodes b →
    ∀ s, Option.Rel (ap.Settles s) (stateAt nodes s) (stateAt (ackNodes ap n nodes).nodes s)
  | [], _, _, _, _, _ => .none
  | rp :: _, n, _, _, ⟨_, hup, h⟩, s =>
    Contiguous.rel_cons (ackNode_cover ap n hup) h (ackNodes_cover ap _ h) (ackNode_settles ap hup n)
      (fun s _ => ackNodes_settles ap (ackNode ap n rp).nextAddr h s) s

def partlyAcked : List RrRef :=
  [.gap 0 1 3 .unsent, ⟨1, .unacked, true, false, .sample 4⟩, .gap 2 5 9 .underway]

end Qeo.Rtps
