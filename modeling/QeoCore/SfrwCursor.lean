import Mathlib.Data.List.TakeWhile
import QeoCore.Cursor
import QeoCore.SfrwRange
/-!
# SfrwCursor — the send cursors of a reader proxy

Whatever takes nodes off `rr_changes` has to move `rr_unsent_changes` and `rr_requested_changes` on.  An address stands
for a node: every node gets a new one.  `sfw_rel_rem_change` may delete the node under a cursor, and moves
`rr_unsent_changes` past gaps that have not been sent; `sfw_rel_new_change` leaves out the gap before a sample.
-/
namespace Qeo.Rtps

open Cursor Ccref Trace RemReader
open List hiding tail set after

variable {p p' q : RemReader} {a b snr : Int} {state : ChangeState} {nodes pre post l l' : List RrRef} {rp x y : RrRef}
  {w : RangeWalk} {n : Nat} {requested u : Option Nat}

abbrev SendsFrom (nodes : List RrRef) (u : Option Nat) : Prop := Points addr (fun rp => rp.state = .unsent) nodes u

abbrev addrs (nodes : List RrRef) : List Nat := nodes.map addr

theorem addrs_append (l l' : List RrRef) : addrs (l ++ l') = addrs l ++ addrs l' := map_append

/-- The cursors are in the list, sending goes on where it has to, and addresses come from the pool. -/
structure CursorInv (p : RemReader) : Prop where
  pool : Fresh (addrs p.changes.nodes) p.nextAddr
  unsent : SendsFrom p.changes.nodes p.unsentChanges
  requested : ∀ a, p.requestedChanges = some a → a ∈ addrs p.changes.nodes

theorem CursorInv.of_same (h : CursorInv p) (hs : SameList p q) : CursorInv q := by
  obtain ⟨hc, hu, hr, hn, _, _⟩ := hs
  exact ⟨by rw [hc, hn]; exact h.pool, by rw [hc, hu]; exact h.unsent, by rw [hc, hr]; exact h.requested⟩

/-! ## A new change -/

structure Appended (p q : RemReader) (u : Option Nat) : Prop where
  pool : ∃ m, q.nextAddr = p.nextAddr + m ∧ addrs q.changes.nodes = addrs p.changes.nodes ++ range' p.nextAddr m
  unsent : SendsFrom q.changes.nodes u

theorem CursorInv.of_appended (h : CursorInv p) (ha : Appended p q q.unsentChanges)
    (hr : q.requestedChanges = p.requestedChanges) : CursorInv q := by
  obtain ⟨m, hn, hk⟩ := ha.pool
  refine ⟨?_, ha.unsent, fun a hra => ?_⟩
  · rw [hn]
    exact h.pool.grow (by rw [hk])
  · rw [hk]
    exact mem_append_left _ (h.requested a (by rw [← hr]; exact hra))

/-- No gap of this state ends the list, so that a new one gets a node of its own. -/
def Apart (nodes : List RrRef) (state : ChangeState) : Prop :=
  ∀ x ∈ nodes.getLast?, ¬ (x.relevant = false ∧ x.state = state)

theorem addGapTail_new {list : Cclist Nat} (h : Apart list.nodes state) (r : Nat) (first last : Int) :
    list.addGapTail r first last state = ⟨list.nodes ++ [.gap r first last state], list.nchanges + 1⟩ := by
  unfold Cclist.addGapTail
  split
  · rename_i x hx
    rw [if_neg (h x hx)]
  · rfl

theorem gapAddr_new (h : Apart p.changes.nodes state) : p.gapAddr state = p.nextAddr := by
  unfold gapAddr
  split
  · rename_i x hx
    rw [if_neg (h x hx)]
  · rfl

/-- A change of this state may go behind the list: there is a cursor already, or the node it is put on is the first that
is unsent. -/
def NewFits (p : RemReader) (cp : Bool) (snr : Int) (state : ChangeState) : Prop :=
  state = .unsent → p.unsentChanges = none →
    ∀ tail ∈ p.changes.nodes.getLast?, if tail.relevant then cp = true → tail.last + 1 = snr else cp = true

theorem SendsFrom.grow_last (h : SendsFrom (init ++ [tail]) u) (x : Int) :
    SendsFrom (init ++ [tail.setLast x]) u := by
  refine Points.congr ?_ h
  exact rel_append (forall₂_same.2 fun _ _ => ⟨rfl, id⟩) (.cons ⟨rfl, id⟩ .nil)

section
variable (h : SendsFrom p.changes.nodes u)
include h

theorem changeEnqueue_appended (snr : Int) (state : ChangeState) :
    Appended p (p.changeEnqueue snr state) (u.or (some p.nextAddr)) :=
  ⟨⟨1, rfl, by simp [changeEnqueue, addrs]⟩, h.append (.inl rfl)⟩

theorem changeEnqueueGap_appended (hn : Apart p.changes.nodes state) (first last : Int) :
    Appended p (p.changeEnqueueGap first last state) (u.or (some p.nextAddr)) := by
  unfold changeEnqueueGap
  rw [addGapTail_new hn]
  exact ⟨⟨1, rfl, by simp [addrs, gap]⟩, h.append (.inl rfl)⟩

theorem changeEnqueueGap_changeEnqueue_appended (hn : Apart p.changes.nodes state) (hs : state = .unsent → u ≠ none)
    (first last : Int) :
    Appended p ((p.changeEnqueueGap first last state).changeEnqueue snr state) (u.or (some (p.nextAddr + 1))) := by
  unfold changeEnqueueGap changeEnqueue
  rw [addGapTail_new hn]
  refine ⟨⟨2, rfl, by simp [addrs, gap, range']⟩, ?_⟩
  simp only [append_assoc, singleton_append]
  cases u with
  | none => exact h.append (.inr ⟨fun hst => hs hst rfl, .inl rfl⟩)
  | some k => exact h.append_right _

end

theorem newChangeList_appended (h : SendsFrom p.changes.nodes p.unsentChanges)
    (hk : NewFits p cp snr state) : Appended p (p.newChangeList cp snr state).1
      (p.unsentChanges.or (p.newChangeList cp snr state).2) := by
  unfold newChangeList
  split
  · rename_i tail ht
    by_cases hr : tail.relevant = true
    · have hn : Apart p.changes.nodes state := by
        intro x hx
        rw [ht] at hx
        cases hx
        simp [hr]
      rw [if_pos hr]
      cases cp with
      | true =>
        simp only [if_true]
        split
        · rename_i hne
          refine changeEnqueueGap_changeEnqueue_appended h hn (fun hst hnone => ?_) _ _
          have := hk hst hnone tail ht
          rw [if_pos hr] at this
          simp [this rfl] at hne
        · exact changeEnqueue_appended h snr state
      | false =>
        simp only [Bool.false_eq_true, if_false, Bool.not_false, or_true, if_true]
        rw [gapAddr_new hn]
        exact changeEnqueueGap_appended h hn _ _
    rw [if_neg hr]
    obtain ⟨init, hi⟩ := getLast?_eq_some_iff.1 ht
    have hinit : SendsFrom (init ++ [tail]) p.unsentChanges := by rw [← hi]; exact h
    cases cp with
    | true =>
      have hq := changeEnqueue_appended (p := { p with
        changes := ⟨p.changes.nodes.dropLast ++ [tail.setLast (snr - 1)], p.changes.nchanges⟩ })
        (by simp only [hi, dropLast_concat]; exact hinit.grow_last (snr - 1)) snr state
      obtain ⟨m, hm, hks⟩ := hq.pool
      refine ⟨⟨m, hm, hks.trans ?_⟩, hq.unsent⟩
      simp [addrs, hi, setLast]
    | false =>
      simp only [Bool.false_eq_true, if_false, hi, dropLast_concat]
      refine ⟨⟨0, rfl, by simp [addrs, hi, setLast]⟩, ?_⟩
      cases hu : p.unsentChanges with
      | none =>
        rw [hu] at hinit
        have hst : state ≠ .unsent := by
          intro hst
          have := hk hst hu tail ht
          rw [if_neg hr] at this
          cases this
        refine points_none fun x hx => ?_
        rcases mem_append.1 hx with hx | hx
        · exact hinit.of_none x (mem_append_left _ hx)
        · rw [mem_singleton.1 hx]
          exact hst
      | some k =>
        rw [hu] at hinit
        have haddr : addr { tail.setLast snr with state } = tail.addr := rfl
        exact hinit.set_last haddr
  rename_i hnil
  have hn : Apart p.changes.nodes state := by simp [Apart, hnil]
  cases cp with
  | true => exact changeEnqueue_appended h snr state
  | false =>
    rw [gapAddr_new hn]
    exact changeEnqueueGap_appended h hn _ _

theorem setAckReq_appended (h : Appended p q u) : Appended p (q.setAckReq n) u := by
  obtain ⟨⟨m, hm, hks⟩, hu⟩ := h
  refine ⟨⟨m, hm, hks ▸ ?_⟩, Points.congr ?_ hu⟩
  · simp only [addrs, setAckReq, map_map]
    refine map_congr_left fun rp _ => ?_
    simp only [Function.comp]
    split <;> rfl
  · refine forall₂_map_right_iff.2 (forall₂_same.2 fun rp _ => ?_)
    split <;> exact ⟨rfl, id⟩

theorem CursorInv.sfwRelNewChange (h : CursorInv p) (hk : NewFits p cp snr p.newState) (rhTimer : Bool) :
    CursorInv (p.sfwRelNewChange rhTimer cp snr) := by
  have ha := newChangeList_appended h.unsent hk
  obtain ⟨-, -, hu, hr⟩ := newChangeList_rest p cp snr p.newState
  unfold RemReader.sfwRelNewChange
  generalize p.newChangeList cp snr p.newState = r at ha hu hr
  obtain ⟨q, _ | n⟩ := r
  · rw [Option.or_none, ← hu] at ha
    exact h.of_appended ha hr
  dsimp only at hu hr ha
  have hq := changeQueued_some q rhTimer cp p.newState n
  refine h.of_appended ?_ (hq.requested.trans hr)
  simp only [hq.unsent, hu]
  have ha' : Appended p (if cp then q.setAckReq n else q) (p.unsentChanges.or (some n)) := by
    split
    · exact setAckReq_appended ha
    · exact ha
  obtain ⟨⟨m, hm, hks⟩, hs⟩ := ha'
  have hc : (q.changeQueued rhTimer cp p.newState (some n)).changes = (if cp then q.setAckReq n else q).changes := by
    rw [hq.changes]
    split <;> rfl
  refine ⟨⟨m, ?_, by rw [hc]; exact hks⟩, by rw [hc]; exact hs⟩
  rw [hq.nextAddr, ← hm]
  split <;> rfl

def Started (p : RemReader) : Prop := p.changes.nodes = [] ∨ p.unsentChanges ≠ none

theorem Started.newFits (h : Started p) (cp : Bool) (snr : Int) (state : ChangeState) : NewFits p cp snr state := by
  intro _ hu tail ht
  rcases h with h | h
  · rw [h] at ht
    cases ht
  · exact absurd hu h

theorem Started.sfwRelNewChange (h : Started p) (rhTimer cp : Bool) (snr : Int) :
    Started (p.sfwRelNewChange rhTimer cp snr) := by
  refine .inr ?_
  have hsome : p.unsentChanges.or (p.newChangeList cp snr p.newState).2 ≠ none := by
    rcases h with h | h
    · unfold newChangeList
      rw [h]
      cases p.unsentChanges <;> cases cp <;> simp
    · cases hu : p.unsentChanges with
      | none => exact absurd hu h
      | some n => simp
  obtain ⟨-, -, hu, -⟩ := newChangeList_rest p cp snr p.newState
  unfold RemReader.sfwRelNewChange
  generalize p.newChangeList cp snr p.newState = r at hsome hu
  obtain ⟨q, _ | n⟩ := r
  · rw [Option.or_none, ← hu] at hsome
    exact hsome
  · rw [(changeQueued_some q rhTimer cp p.newState n).unsent]
    simp

theorem CursorInv.replay (rhTimer : Bool) : ∀ {cached : Cached} {p : RemReader}, CursorInv p → Started p →
    CursorInv (p.replay rhTimer cached)
  | [], _, h, _ => h
  | c :: cached, p, h, hs => by
    show CursorInv ((p.proxyAddChange rhTimer c).replay rhTimer cached)
    unfold proxyAddChange
    split
    case h_3 => exact replay rhTimer h hs
    all_goals exact replay rhTimer (h.sfwRelNewChange (hs.newFits _ _ _) rhTimer) (hs.sfwRelNewChange rhTimer _ _)

/-! ## Sending -/

theorem addrs_of_restated : ∀ {l l' : List RrRef}, List.Forall₂ Restated l l' → addrs l' = addrs l
  | _, _, .nil => rfl
  | _, _, .cons h hl => by
    rw [addrs, map_cons, h.addr]
    exact congrArg _ (addrs_of_restated hl)

theorem SendsFrom.of_restated (h : SendsFrom l u) (hr : List.Forall₂ Restated l l') : SendsFrom l' u :=
  Points.congr (hr.imp fun _ _ hxy => ⟨hxy.addr, hxy.unsent⟩) h

theorem pushPass_sendsFrom (tx : Int → TxRes) : ∀ (gap : Option GapInfo) (nodes : List RrRef),
    SendsFrom (pushPass tx gap nodes).nodes (pushPass tx gap nodes).stopped.join
  | _, [] => rfl
  | gap, rp :: rest => by
    obtain ⟨hr, hst⟩ := sendNode_restated tx gap rp
    unfold pushPass
    dsimp only
    split
    · exact .inl (congrArg some hr.addr.symm)
    · refine .inr ⟨fun hu => ?_, pushPass_sendsFrom tx _ rest⟩
      cases hst.symm.trans hu

theorem repairPass_stopped (tx : Int → TxRes) : ∀ {started : Bool} {gap : Option GapInfo}
    {nodes : List RrRef}, (repairPass tx started gap nodes).1.stopped = some (some n) → n ∈ addrs nodes
  | started, gap, rp :: rest, h => by
    unfold repairPass at h
    dsimp only at h
    split at h
    · exact mem_cons_of_mem _ (repairPass_stopped tx h)
    split at h
    · exact mem_cons_of_mem _ (repairPass_stopped tx h)
    generalize (if passesFragments rest then { rp with state := .underway } else rp) = x at h
    split at h
    · cases started with
      | true =>
        cases h
        exact mem_cons_self
      | false => cases h
    · exact mem_cons_of_mem _ (repairPass_stopped tx h)

theorem CursorInv.of_passedOver (h : CursorInv p) (hp : PassedOver p q) (hu : SendsFrom q.changes.nodes q.unsentChanges)
    (hr : ∀ n, q.requestedChanges = some n → n ∈ addrs p.changes.nodes) : CursorInv q := by
  have ha := addrs_of_restated hp.nodes
  exact ⟨by rw [ha, hp.nextAddr]; exact h.pool, hu, by rw [ha]; exact hr⟩

theorem CursorInv.sfwRelSendData {active b : Bool} (h : CursorInv p)
    (hs : p.sfwRelSendData active tx = some (q, msgs, b)) : CursorInv q := by
  have hp := sfwRelSendData_passedOver hs
  have hkept : q.unsentChanges = p.unsentChanges → SendsFrom q.changes.nodes q.unsentChanges := by
    intro hu
    rw [hu]
    exact h.unsent.of_restated hp.nodes
  unfold RemReader.sfwRelSendData at hs
  dsimp only at hs
  split at hs
  · cases hs
    exact h.of_passedOver hp (hkept rfl) nofun
  split at hs
  · split at hs
    · cases hs
      exact h.of_passedOver hp (hkept rfl) nofun
    rename_i u hu
    split at hs
    · cases hs
    rename_i pre post _ hspan
    rw [span_eq_takeWhile_dropWhile] at hspan
    have hpre : ∀ x ∈ pre, ¬ x.state = .unsent := by
      intro x hx
      have hb := h.unsent.before
      rw [hu] at hb
      refine hb x ?_
      rw [← (Prod.mk.inj hspan).1] at hx
      have hne : (fun rp : RrRef => rp.addr != u) = fun rp => decide (some rp.addr ≠ some u) := by
        funext rp
        by_cases hrp : rp.addr = u <;> simp [hrp]
      rwa [hne] at hx
    have hpush := (pushPass_sendsFrom tx none post).append_left hpre
    split at hs
    all_goals
      rename_i hst
      rw [hst] at hpush
      cases hs
      exact h.of_passedOver hp hpush nofun
  split at hs
  · split at hs
    · rename_i hst
      cases hs
      exact h.of_passedOver hp (hkept rfl) fun n hn => repairPass_stopped tx (by rw [hst]; exact congrArg some hn)
    split at hs
    · cases hs
      exact h.of_passedOver hp (hkept rfl) nofun
    split at hs <;> cases hs <;> exact h.of_passedOver hp (hkept rfl) nofun
  · cases hs
    exact h.of_passedOver hp (hkept rfl) nofun

/-! ## ACKNACK -/

theorem CursorInv.gapBehind (h : CursorInv p) (hn : Apart p.changes.nodes .unsent) (first last : Int)
    (hq : q = p.changeEnqueueGap first last .unsent) :
    CursorInv (if q.unsentChanges = none then { q with unsentChanges := some (p.gapAddr .unsent) } else q) := by
  have ha := changeEnqueueGap_appended h.unsent hn first last
  rw [gapAddr_new hn]
  subst hq
  split
  · rename_i hu
    have hu' : p.unsentChanges = none := hu
    rw [hu'] at ha
    exact h.of_appended ⟨ha.pool, ha.unsent⟩ rfl
  · rename_i hu
    obtain ⟨n, hn'⟩ := Option.ne_none_iff_exists'.1 hu
    have hn'' : p.unsentChanges = some n := hn'
    rw [hn''] at ha
    exact h.of_appended ⟨ha.pool, by rw [hn']; exact ha.unsent⟩ rfl

theorem CursorInv.implicitGap (h : CursorInv p) (ap : AckNackSMsg) : CursorInv (p.implicitGap ap) := by
  unfold RemReader.implicitGap
  dsimp only
  split
  · split
    · rename_i tail ht
      split
      · obtain ⟨init, hi⟩ := getLast?_eq_some_iff.1 ht
        have ha : addrs (p.changes.nodes.dropLast ++ [tail.setLast p.lastSeqnr]) = addrs p.changes.nodes := by
          simp [addrs, hi, setLast]
        refine ⟨?_, ?_, fun n hn => ?_⟩
        · simp only [withNodes, ha]
          exact h.pool
        · simp only [withNodes, hi, dropLast_concat]
          exact SendsFrom.grow_last (by rw [← hi]; exact h.unsent) _
        · simp only [withNodes, ha]
          exact h.requested n hn
      · rename_i hne
        refine h.gapBehind (fun x hx => ?_) _ _ rfl
        rw [ht] at hx
        cases hx
        exact hne
    · rename_i hnil
      exact h.gapBehind (by simp [Apart, hnil]) _ _ rfl
  · exact h

/-- What an ACKNACK makes of the node `x`, with addresses from `n` on: the first part keeps its address, the others get
new ones, and none is unsent that was not. -/
structure PartsOf (x : RrRef) (n : Nat) (nodes : List RrRef) (n' : Nat) (requested : Option Nat) : Prop where
  pool : ∃ m, n' = n + m ∧ addrs nodes = x.addr :: range' n m
  unsent : ∀ y ∈ nodes, y.state = .unsent → x.state = .unsent
  requested : ∀ k, requested = some k → k ∈ addrs nodes

theorem PartsOf.single (ha : y.addr = x.addr)
    (hu : y.state = .unsent → x.state = .unsent) (hr : ∀ k, requested = some k → k = x.addr) :
    PartsOf x n [y] n requested :=
  ⟨⟨0, rfl, by simp [addrs, ha]⟩, by simpa using hu, fun k hk => by simp [addrs, ha, hr k hk]⟩

theorem PartsOf.setState (h : PartsOf x n (done ++ [y]) n' requested) (state : ChangeState) (hs : state ≠ .unsent) :
    PartsOf x n (done ++ [{ y with state }]) n' requested := by
  obtain ⟨⟨m, hm, ha⟩, hu, hr⟩ := h
  have he : addrs (done ++ [{ y with state }]) = addrs (done ++ [y]) := by simp [addrs]
  refine ⟨⟨m, hm, he.trans ha⟩, fun z hz hst => ?_, fun k hk => he ▸ hr k hk⟩
  rcases mem_append.1 hz with hz | hz
  · exact hu z (mem_append_left _ hz) hst
  · rw [mem_singleton.1 hz] at hst
    exact absurd hst hs

abbrev RangeWalk.Parts (x : RrRef) (n : Nat) (w : RangeWalk) : Prop :=
    PartsOf x n (w.done ++ [w.rp]) w.nextAddr w.requested

theorem RangeWalk.Parts.split (h : w.Parts x n) (state : ChangeState)
    (hs : state ≠ .unsent) : (w.split state).Parts x n := by
  unfold RangeWalk.split
  split
  · exact h.setState state hs
  obtain ⟨⟨m, hm, ha⟩, hu, hr⟩ := h
  have he : addrs (w.done ++ [{ w.rp with state, u := .range w.rp.first (w.snr - 1) }] ++
      [gap w.nextAddr w.snr w.rp.last w.rp.state]) = addrs (w.done ++ [w.rp]) ++ [w.nextAddr] := by
    simp [addrs, gap]
  refine ⟨⟨m + 1, by simp only [hm]; omega, ?_⟩, fun z hz hst => ?_, fun k hk => ?_⟩
  · rw [he, ha, hm, cons_append, range'_1_concat]
  · simp only [mem_append, mem_singleton, or_assoc] at hz
    rcases hz with hz | rfl | rfl
    · exact hu z (by simp [hz]) hst
    · exact absurd hst hs
    · exact hu w.rp (by simp) hst
  · rw [he]
    exact mem_append_left _ (hr k hk)

theorem RangeWalk.mem_split (h : n ∈ addrs (w.done ++ [w.rp])) (state : ChangeState) :
    n ∈ addrs ((w.split state).done ++ [(w.split state).rp]) := by
  unfold RangeWalk.split
  split
  · simpa [addrs] using h
  · simp only [addrs, map_append, map_cons, map_nil, mem_append] at h ⊢
    exact .inl h

theorem PartsOf.request
    (h : PartsOf x n l n' requested) (hk : k ∈ addrs l) : PartsOf x n l n' (requested.or (some k)) := by
  refine ⟨h.pool, h.unsent, fun j hj => ?_⟩
  cases requested with
  | none =>
    cases hj
    exact hk
  | some i => exact h.requested j hj

theorem RangeWalk.Parts.bit (h : w.Parts x n) (set : Bool) : (w.bit set).Parts x n := by
  unfold RangeWalk.bit
  cases set with
  | true =>
    simp only [if_true]
    split
    · exact h.split .acked nofun
    · exact h
  | false =>
    simp only [Bool.false_eq_true, if_false]
    split
    · exact h
    have hs := h.split .requested nofun
    have hreq : (w.split .requested).requested = w.requested := by
      unfold RangeWalk.split
      split <;> rfl
    rw [RangeWalk.Parts, hreq] at hs
    exact hs.request (w.mem_split (by simp [addrs]) .requested)

theorem RangeWalk.Parts.bits : ∀ {bits : List Bool} {w : RangeWalk}, w.Parts x n → (w.bits bits).Parts x n
  | [], _, h => h
  | set :: rest, w, h => by
    unfold RangeWalk.bits
    dsimp only
    split
    · exact h.bit set
    · exact (h.bit set).bits

theorem RangeWalk.Parts.finish (h : w.Parts x n) :
    PartsOf x n w.finish.nodes w.finish.nextAddr w.finish.requested := by
  unfold RangeWalk.finish
  split
  · split
    · exact h.setState .acked nofun
    · exact h.split .acked nofun
  · refine (h.setState .requested nofun).request ?_
    simp [addrs]

theorem ackNode_parts (ap : AckNackSMsg) (n : Nat) (rp : RrRef) :
    PartsOf rp n (ackNode ap n rp).nodes (ackNode ap n rp).nextAddr (ackNode ap n rp).requested := by
  unfold ackNode
  split
  · exact .single rfl id nofun
  split
  · exact .single rfl nofun nofun
  split
  · split
    · split
      · exact .single rfl nofun fun k hk => (Option.some.inj hk).symm
      · exact .single rfl nofun nofun
    · have hstart : (RangeWalk.start ap n rp).Parts rp n := .single rfl id nofun
      exact hstart.bits.finish
  · exact .single rfl id nofun

theorem ackNodes_spec (ap : AckNackSMsg) : ∀ (nodes : List RrRef) (n : Nat),
    (∃ m, (ackNodes ap n nodes).nextAddr = n + m ∧
      (addrs (ackNodes ap n nodes).nodes).Perm (addrs nodes ++ range' n m)) ∧
    (∀ u, SendsFrom nodes u → SendsFrom (ackNodes ap n nodes).nodes u) ∧
    ∀ k, (ackNodes ap n nodes).requested = some k → k ∈ addrs (ackNodes ap n nodes).nodes
  | [], n => ⟨⟨0, rfl, by simp [addrs, ackNodes]⟩, fun _ h => h, nofun⟩
  | rp :: rest, n => by
    obtain ⟨⟨m, hm, ha⟩, hu, hr⟩ := ackNode_parts ap n rp
    obtain ⟨⟨m', hm', ha'⟩, hu', hr'⟩ := ackNodes_spec ap rest (ackNode ap n rp).nextAddr
    unfold ackNodes
    dsimp only
    refine ⟨⟨m + m', by omega, ?_⟩, fun u h => ?_, fun k hk => ?_⟩
    · rw [hm] at ha' ⊢
      rw [addrs_append, ha, ← range'_append_1]
      exact .cons _ ((ha'.append_left _).trans (perm_append_comm_assoc _ _ _))
    · rcases h with rfl | ⟨hn, h⟩
      · cases hnodes : (ackNode ap n rp).nodes with
        | nil =>
          rw [hnodes] at ha
          cases ha
        | cons y l =>
          rw [hnodes] at ha
          exact .inl (congrArg some (List.cons.inj ha).1.symm)
      · exact (hu' u h).append_left fun y hy hst => hn (hu y hy hst)
    rw [addrs_append, mem_append]
    cases hreq : (ackNode ap n rp).requested with
    | none =>
      rw [hreq] at hk
      exact .inr (hr' k hk)
    | some j =>
      rw [hreq] at hk
      exact .inl (hr k (hreq.trans hk))

theorem CursorInv.removeAcked : ∀ {nodes : List RrRef} {p q : RemReader}, CursorInv p → p.changes.nodes = nodes →
    p.removeAcked nodes = some q → CursorInv q
  | [], p, q, h, _, hs => by
    obtain rfl : p = q := Option.some.inj hs
    exact h
  | rp :: rest, p, q, h, hn, hs => by
    unfold RemReader.removeAcked at hs
    split at hs
    · obtain ⟨r, hr, hs⟩ := Option.bind_eq_some_iff.1 hs
      obtain ⟨requested, hreq, rfl⟩ := Option.map_eq_some_iff.1 hr
      obtain ⟨hpool, hun, hrq⟩ := h
      rw [hn] at hpool hun hrq
      refine removeAcked ?_ rfl hs
      refine ⟨hpool.sublist (sublist_cons_self _ _), hun.tail, fun k hk => ?_⟩
      subst hk
      split at hreq
      · split at hreq
        · cases hreq
        split at hreq
        · cases hreq
          simp [addrs]
        · cases hreq
      · rename_i hne
        have hreq' := Option.some.inj hreq
        rcases mem_cons.1 (hrq k hreq') with rfl | hk
        · exact absurd hreq' hne
        · exact hk
    · obtain rfl : p = q := Option.some.inj hs
      exact h

theorem CursorInv.ackUpdate (h : CursorInv p) (hs : p.ackUpdate ap = some q) : CursorInv q := by
  obtain ⟨⟨m, hm, hp⟩, hu, hr⟩ := ackNodes_spec ap p.changes.nodes p.nextAddr
  have hpool := h.pool.grow hp
  rw [← hm] at hpool
  have hloop : CursorInv (p.looped ap) := ⟨hpool, hu _ h.unsent, hr⟩
  exact (hloop.of_same (mustRepair_same _)).removeAcked (by rw [(mustRepair_same _).changes]) hs

/-! ## Restarting -/

def ResetFits (nodes : List RrRef) : Prop := ∀ rp ∈ nodes.takeWhile (fun rp => !inTransit rp.state), rp.state ≠ .unsent

instance (nodes : List RrRef) : Decidable (ResetFits nodes) := by unfold ResetFits; infer_instance

theorem reset_sendsFrom : ∀ {nodes : List RrRef}, ResetFits nodes →
    SendsFrom (nodes.map fun rp => if inTransit rp.state then { rp with state := .unsent } else rp)
      ((nodes.find? fun rp => inTransit rp.state).map (·.addr))
  | [], _ => rfl
  | rp :: rest, h => by
    unfold ResetFits at h
    by_cases hrp : inTransit rp.state = true
    · rw [find?_cons_of_pos (p := fun rp : RrRef => inTransit rp.state) hrp, map_cons, if_pos hrp]
      exact .inl rfl
    · rw [takeWhile_cons_of_pos (by simpa using hrp)] at h
      rw [find?_cons_of_neg (p := fun rp : RrRef => inTransit rp.state) hrp, map_cons, if_neg hrp]
      exact .inr ⟨h rp (by simp), reset_sendsFrom (forall_mem_cons.1 h).2⟩

theorem cursorInv_empty (hc : p.changes = .empty) (hu : p.unsentChanges = none)
    (hr : p.requestedChanges = none) : CursorInv p := by
  refine ⟨?_, ?_, ?_⟩
  · rw [hc]
    exact ⟨nodup_nil, nofun⟩
  · rw [hc, hu]
    rfl
  · rw [hr]
    nofun

theorem CursorInv.sfwRelReset (h : CursorInv p) (hk : p.durable = false → ResetFits p.changes.nodes)
    (rhTimer : Bool) : CursorInv (p.sfwRelReset rhTimer cached) := by
  unfold RemReader.sfwRelReset
  extract_lets p1 p2
  have hp : CursorInv p2 := by
    simp only [p2]
    split
    · apply replay
      · exact cursorInv_empty rfl rfl rfl
      · exact .inl rfl
    rename_i hd
    have ha : addrs (p.changes.nodes.map fun rp => if inTransit rp.state then { rp with state := .unsent } else rp) =
        addrs p.changes.nodes := by
      rw [addrs, map_map]
      refine map_congr_left fun rp _ => ?_
      simp only [Function.comp]
      split <;> rfl
    refine ⟨?_, reset_sendsFrom (hk (by simpa [p1] using hd)), nofun⟩
    simp only [p1, ha]
    exact h.pool
  split
  · exact ⟨hp.pool, hp.unsent, hp.requested⟩
  · exact hp

theorem CursorInv.start (cached : Cached) (last : Int) (pushMode durable : Bool) (delay : Nat) (rhTimer : Bool) :
    CursorInv (sfwRelStart pushMode durable delay rhTimer cached last) := by
  unfold sfwRelStart
  extract_lets p1 p2
  have hp : CursorInv p2 := by
    simp only [p2]
    split
    · apply replay
      · exact cursorInv_empty rfl rfl rfl
      · exact .inl rfl
    · exact cursorInv_empty rfl rfl rfl
  split
  · exact ⟨hp.pool, hp.unsent, hp.requested⟩
  · exact hp

theorem CursorInv.sfwRelAcknack
    (h : CursorInv p) (hs : p.sfwRelAcknack rhTimer cached ap final = some (q, msgs)) : CursorInv q := by
  rcases sfwRelAcknack_cases hs with rfl | ⟨r, hr, hs | ⟨hd, rfl⟩ | ⟨t, ht, hs⟩⟩
  · exact h
  · exact (h.of_same hr).of_same hs
  · exact (h.of_same hr).sfwRelReset (fun hf => absurd (hd.symm.trans hf) nofun) rhTimer
  · exact (((h.of_same hr).implicitGap ap).ackUpdate ht).of_same hs

/-! ## Removing a change -/

def isGap (rp : RrRef) : Bool := !rp.relevant

def nodeAt (nodes : List RrRef) (addr : Nat) : Option (List RrRef × RrRef × List RrRef) :=
  match nodes.span (·.addr != addr) with
  | (before, rp :: after) => some (before, rp, after)
  | (_, []) => none

section
variable (snr : Int) (before : List RrRef) (x : RrRef)

/-- A gap takes the node `x` over when `snr` is removed: any gap next to it if it is the node of `snr`, and otherwise,
if it is a gap itself, the one on the other side of `snr`. -/
def Joined (after : List RrRef) : Prop :=
  if holds x snr then before.getLast?.any isGap ∨ after.head?.any isGap
  else isGap x ∧ after.head?.any (holds · snr) ∧ after.tail.head?.any isGap

/-- The node `x` is still there once `snr` is removed: it is a sample or has one before it, other than that of `snr`,
and no gap takes it over. -/
def Stays (after : List RrRef) : Prop :=
  (∃ y ∈ before ++ [x], y.relevant ∧ ¬ holds y snr) ∧ ¬ Joined snr before x after

/-- `rr_unsent_changes` moves on from the removed sample `x` to the next one, past gaps that have been sent or that go.
-/
def MovesOn (after : List RrRef) : Prop :=
  (∀ y ∈ before, isGap y) ∨
    ((Joined snr before x after ∨ x.state ≠ .unsent) ∧ ∀ y ∈ after.takeWhile isGap, y.state ≠ .unsent)

end

def UnsentStays (p : RemReader) (snr : Int) : Prop :=
  ∀ u ∈ p.unsentChanges, ∀ t ∈ nodeAt p.changes.nodes u,
    if holds t.2.1 snr then MovesOn snr t.1 t.2.1 t.2.2 else Stays snr t.1 t.2.1 t.2.2

def RequestedStays (p : RemReader) (snr : Int) : Prop :=
  ∀ u ∈ p.requestedChanges, ∀ t ∈ nodeAt p.changes.nodes u, if p.astate = .repairing ∧ holds t.2.1 snr then
      ∀ n ∈ t.2.2.find? (·.state == .requested), ∀ t ∈ nodeAt p.changes.nodes n.addr, Stays snr t.1 t.2.1 t.2.2
    else Stays snr t.1 t.2.1 t.2.2

section
variable (snr : Int) (before : List RrRef) (x : RrRef) (after : List RrRef) (p : RemReader)

instance : Decidable (Joined snr before x after) := by unfold Joined; infer_instance
instance : Decidable (Stays snr before x after) := by unfold Stays; infer_instance
instance : Decidable (MovesOn snr before x after) := by unfold MovesOn; infer_instance
instance : Decidable (UnsentStays p snr) := by unfold UnsentStays; infer_instance
instance : Decidable (RequestedStays p snr) := by unfold RequestedStays; infer_instance

end

theorem nodeAt_of_nodup (hnd : (addrs (pre ++ x :: post)).Nodup) :
    nodeAt (pre ++ x :: post) x.addr = some (pre, x, post) := by
  have hne : ∀ y ∈ pre, (y.addr != x.addr) = true := by
    intro y hy
    rw [addrs_append] at hnd
    have := (nodup_append.1 hnd).2.2 y.addr (mem_map_of_mem hy) x.addr mem_cons_self
    simpa using this
  have hspan : (pre ++ x :: post).span (·.addr != x.addr) = (pre, x :: post) := by
    rw [span_eq_takeWhile_dropWhile, takeWhile_append_of_pos hne, dropWhile_append_of_pos hne]
    simp
  unfold nodeAt
  rw [hspan]

def tag (rp : RrRef) : Nat × ChangeState × Bool := (rp.addr, rp.state, rp.relevant)

theorem tag_setLast (h : rp.relevant = false) (x : Int) : tag (rp.setLast x) = tag rp := by
  rw [tag, tag, h]
  rfl

theorem tag_setFirst (h : rp.relevant = false) (x : Int) : tag (rp.setFirst x) = tag rp := by
  rw [tag, tag, h]
  rfl

theorem joinGaps_tag (hr : rp.relevant = false) (pre post : List RrRef) (snr : Int) :
    (joinGaps pre rp post snr).map tag = (coalesce isGap pre rp post).map tag := by
  have hnext (r : RrRef) (h : r.relevant = false) : (joinNext r post).map tag =
      if post.head?.any isGap then post.map tag else tag r :: post.map tag := by
    unfold joinNext
    cases post with
    | nil => rfl
    | cons next rest =>
      cases hn : next.relevant with
      | true => simp [hn, isGap]
      | false => simp [hn, isGap, tag_setFirst hn]
  unfold joinGaps joinPrev coalesce
  cases hl : pre.getLast? with
  | none =>
    rw [map_append, hnext rp hr, map_append]
    simp only [Option.any_none, Bool.false_eq_true, false_and, false_or, if_false]
    split <;> rfl
  | some prev =>
    obtain ⟨init, rfl⟩ := getLast?_eq_some_iff.1 hl
    cases hp : prev.relevant with
    | true =>
      simp only [hp, if_true, map_append, hnext rp hr, Option.any_some, isGap, Bool.not_true, Bool.false_eq_true,
        false_and, false_or, if_false]
      split <;> rfl
    | false =>
      have hset : (prev.setLast snr).relevant = false := rfl
      simp only [hp, Bool.false_eq_true, if_false, map_append, hnext _ hset, Option.any_some, isGap, Bool.not_false,
        true_and, true_or, if_true, dropLast_concat]
      split
      · rfl
      · simp [tag_setLast hp]

theorem dropWhile_gap_tag (h : l.map tag = l'.map tag) :
    (l.dropWhile (!·.relevant)).map tag = (l'.dropWhile isGap).map tag := by
  have hd : ∀ l : List RrRef, (l.dropWhile (!·.relevant)).map tag = (l.map tag).dropWhile (!·.2.2) := fun l => by
    rw [dropWhile_map]
    rfl
  rw [hd, h, ← hd]
  rfl

theorem addrs_of_tag (h : l.map tag = l'.map tag) : addrs l = addrs l' := by
  have := congrArg (List.map Prod.fst) h
  simpa [map_map, Function.comp_def, tag] using this

theorem SendsFrom.of_tag (h : l.map tag = l'.map tag) (hs : SendsFrom l u) : SendsFrom l' u := by
  have hmap (l : List RrRef) : SendsFrom l u ↔ Points Prod.fst (fun t => t.2.1 = .unsent) (l.map tag) u := by
    rw [points_map]
    exact Iff.rfl
  rw [hmap, h, ← hmap] at hs
  exact hs

theorem mem_of_stays_before (hy : y ∈ before ++ [x]) (hrel : y.relevant = true)
    (hj : ¬ (isGap x ∧ mid = [] ∧ post.head?.any isGap)) :
    x ∈ (coalesce isGap (before ++ x :: mid) rp post).dropWhile isGap := by
  have hgap : isGap y = false := by simp [isGap, hrel]
  rcases mem_append.1 hy with hy | hy
  · obtain ⟨l1, l2, rfl⟩ := append_of_mem hy
    rw [append_assoc, cons_append, coalesce_append hgap]
    refine mem_dropWhile_of_border hgap (mem_cons_of_mem y ?_)
    unfold coalesce
    split
    · rename_i hboth
      cases mid with
      | nil =>
        rw [getLast?_append] at hboth
        exact absurd ⟨hboth.1, rfl, hboth.2⟩ hj
      | cons z mid => simp
    · simp
  · obtain rfl := mem_singleton.1 hy
    rw [coalesce_append hgap]
    exact mem_dropWhile_of_border hgap mem_cons_self

theorem mem_of_stays_self (hy : y ∈ pre) (hrel : y.relevant = true)
    (hj : ¬ (pre.getLast?.any isGap ∨ post.head?.any isGap)) :
    rp ∈ (coalesce isGap pre rp post).dropWhile isGap := by
  have hgap : isGap y = false := by simp [isGap, hrel]
  unfold coalesce
  rw [if_neg hj, if_neg fun h => hj (.inl h.1)]
  obtain ⟨l1, l2, rfl⟩ := append_of_mem hy
  rw [append_assoc]
  exact mem_dropWhile_of_border hgap (by simp)

theorem mem_of_stays_behind (hy : y ∈ pre ∨ y ∈ mid ++ [x])
    (hrel : y.relevant = true) : x ∈ (coalesce isGap pre rp (mid ++ x :: after)).dropWhile isGap := by
  have hgap : isGap y = false := by simp [isGap, hrel]
  rcases hy with hy | hy
  · obtain ⟨l1, l2, rfl⟩ := append_of_mem hy
    rw [coalesce_append hgap]
    exact mem_dropWhile_of_border hgap (mem_cons_of_mem y ((suffix_coalesce _ _ _ _).subset (by simp)))
  obtain ⟨l, hl⟩ := suffix_coalesce isGap pre rp (mid ++ x :: after)
  rw [← hl]
  obtain ⟨l1, l2, hm⟩ := append_of_mem hy
  have hsplit : mid ++ x :: after = l1 ++ y :: (l2 ++ after) := by
    rw [← singleton_append, ← append_assoc, hm, append_assoc, cons_append]
  have hlast : (y :: l2).getLast? = some x := by
    have := congrArg getLast? hm
    rwa [getLast?_concat, getLast?_append_of_ne_nil _ (by simp), eq_comm] at this
  have hx : x ∈ y :: (l2 ++ after) := mem_append_left after (mem_of_getLast? hlast)
  rw [hsplit, ← append_assoc]
  exact mem_dropWhile_of_border hgap hx

theorem WCover.holds_unique (h : WCover a (pre ++ rp :: post) b) (hrp : holds rp snr = true) :
    ∀ y ∈ pre ++ post, holds y snr = false := by
  obtain ⟨c, hpre, hc, _, hpost⟩ := Tiles.tiled_append.1 h
  have hb : rp.first ≤ snr ∧ snr ≤ rp.last := by simpa [holds] using hrp
  intro y hy
  simp only [holds, decide_eq_false_iff_not]
  rcases mem_append.1 hy with hy | hy
  · have := (Tiles.Tiled.mem_bounds (fun _ h => by omega) hpre y hy).2
    omega
  · have := (Tiles.Tiled.mem_bounds (fun _ h => by omega) hpost y hy).1
    omega

theorem mem_of_stays (hn : pre ++ rp :: post = before ++ x :: after)
    (hrp : holds rp snr = true) (hoth : ∀ y ∈ pre ++ post, holds y snr = false) (ha : rp'.addr = rp.addr)
    (hs : Stays snr before x after) : x.addr ∈ addrs ((coalesce isGap pre rp' post).dropWhile isGap) := by
  obtain ⟨⟨y, hy, hrel, hnot⟩, hj⟩ := hs
  unfold Joined at hj
  have hself : before = pre → x = rp → after = post →
    x.addr ∈ addrs ((coalesce isGap pre rp' post).dropWhile isGap) := by
    rintro rfl rfl rfl
    rw [if_pos hrp] at hj
    have hy' : y ∈ before := by
      rcases mem_append.1 hy with hy | hy
      · exact hy
      · rw [mem_singleton.1 hy] at hnot
        exact absurd hrp hnot
    rw [← ha]
    exact mem_map_of_mem (mem_of_stays_self hy' hrel hj)
  rcases append_eq_append_iff.1 hn with ⟨mid, hb, hm⟩ | ⟨mid, rfl, hm⟩
  · cases mid with
    | nil =>
      obtain ⟨hx, hpost⟩ := List.cons.inj hm
      exact hself (by rw [hb, append_nil]) hx.symm hpost.symm
    | cons z mid =>
      obtain ⟨rfl, rfl⟩ := List.cons.inj hm
      refine mem_map_of_mem (mem_of_stays_behind (y := y) ?_ hrel)
      subst hb
      simp only [append_assoc, mem_append, cons_append, mem_cons] at hy ⊢
      rcases hy with hy | rfl | hy
      · exact .inl hy
      · exact absurd hrp hnot
      · exact .inr hy
  cases mid with
  | nil =>
    obtain ⟨hx, hpost⟩ := List.cons.inj hm
    exact hself (append_nil before).symm hx hpost
  | cons z mid =>
    obtain ⟨rfl, rfl⟩ := List.cons.inj hm
    have hx : holds x snr = false := hoth x (by simp)
    rw [if_neg (by simp [hx])] at hj
    refine mem_map_of_mem (mem_of_stays_before hy hrel ?_)
    rintro ⟨hgap, rfl, hpost⟩
    exact hj ⟨hgap, by simpa using hrp, hpost⟩

theorem mem_of_sample_behind (hy : y ∈ post) (hrel : y.relevant = true) :
    y.addr ∈ addrs ((coalesce isGap pre rp' post).dropWhile isGap) := by
  obtain ⟨mid, after, rfl⟩ := append_of_mem hy
  exact mem_map_of_mem (mem_of_stays_behind (.inr (by simp)) hrel)

theorem coalesce_dropWhile_sublist (pre : List RrRef) (rp : RrRef) (post : List RrRef) :
    ((coalesce isGap pre rp post).dropWhile isGap).Sublist (pre ++ rp :: post) := by
  refine (dropWhile_sublist _).trans ((coalesce_sublist isGap pre rp post).trans (.append (.refl _) ?_))
  split
  · exact sublist_cons_self _ _
  · exact .refl _

theorem coalesce_of_gaps (hpre : ∀ y ∈ pre, isGap y = true) (hrp : isGap rp' = true) :
    (coalesce isGap pre rp' post).dropWhile isGap = post.dropWhile isGap := by
  unfold coalesce
  rw [dropWhile_append_of_pos]
  · split
    · rfl
    · rw [dropWhile_cons_of_pos hrp]
  intro y hy
  split at hy
  · exact hpre y ((dropLast_sublist pre).subset hy)
  · exact hpre y hy

theorem sendsFrom_nextSample (h : ∀ y ∈ post.takeWhile isGap, y.state ≠ .unsent) :
    SendsFrom post ((post.find? (·.relevant)).map (·.addr)) := by
  have hhead : SendsFrom (post.dropWhile isGap) ((post.dropWhile isGap).head?.map (·.addr)) := .head _
  rw [find?_eq_head?_dropWhile_not]
  have := hhead.append_left h
  rwa [takeWhile_append_dropWhile] at this

theorem sendsFrom_of_movesOn (h : SendsFrom (pre ++ rp :: post) (some rp.addr))
    (hnd : (addrs (pre ++ rp :: post)).Nodup) (hrp : holds rp snr = true) (hm : MovesOn snr pre rp post)
    (ha : rp'.addr = rp.addr) (hst : rp'.state = rp.state) (hgap : isGap rp' = true) :
    SendsFrom ((coalesce isGap pre rp' post).dropWhile isGap) ((post.find? (·.relevant)).map (·.addr)) := by
  rcases hm with hpre | ⟨hj, hpost⟩
  · rw [coalesce_of_gaps hpre hgap, find?_eq_head?_dropWhile_not]
    exact .head _
  have hnext := sendsFrom_nextSample hpost
  have hpre := h.before_of_nodup hnd
  have hjoined : SendsFrom (pre ++ if pre.getLast?.any isGap ∨ post.head?.any isGap then post else rp' :: post)
      ((post.find? (·.relevant)).map (·.addr)) := by
    refine Points.append_left ?_ hpre
    split
    · exact hnext
    · rename_i hnj
      have hsent : rp.state ≠ .unsent := hj.resolve_left (by rw [Joined, if_pos hrp]; exact hnj)
      exact .inr ⟨fun hu => hsent (hst.symm.trans hu), hnext⟩
  refine hjoined.sublist (((dropWhile_sublist _).trans (coalesce_sublist isGap pre rp' post))) ?_ fun k hk => ?_
  · refine List.Nodup.sublist ?_ hnd
    rw [addrs_append, map_append]
    refine List.Sublist.append (.refl _) ?_
    split
    · exact (sublist_cons_self _ _).map _
    · rw [map_cons, ha]
      exact .refl _
  · obtain ⟨y, hy, rfl⟩ := Option.map_eq_some_iff.1 hk
    exact mem_of_sample_behind (mem_of_find?_eq_some hy) (find?_some hy)

theorem nodeAt_of_mem (hnd : (addrs nodes).Nodup) (hk : k ∈ addrs nodes) : ∃ before x after,
    nodes = before ++ x :: after ∧ x.addr = k ∧ nodeAt nodes k = some (before, x, after) := by
  obtain ⟨x, hx, rfl⟩ := mem_map.1 hk
  obtain ⟨before, after, rfl⟩ := append_of_mem hx
  exact ⟨before, x, after, rfl, rfl, nodeAt_of_nodup hnd⟩

section
variable {rp' : RrRef} (hnd : (addrs (pre ++ rp :: post)).Nodup) (hrp : holds rp snr = true)
  (hoth : ∀ y ∈ pre ++ post, holds y snr = false) (ha : rp'.addr = rp.addr)
include hnd hrp hoth ha

theorem mem_of_stays_at (hk : k ∈ addrs (pre ++ rp :: post))
    (hs : ∀ t ∈ nodeAt (pre ++ rp :: post) k, Stays snr t.1 t.2.1 t.2.2) :
    k ∈ addrs ((coalesce isGap pre rp' post).dropWhile isGap) := by
  obtain ⟨before, x, after, hsplit, rfl, hat⟩ := nodeAt_of_mem hnd hk
  exact mem_of_stays hsplit hrp hoth ha (hs _ hat)

theorem addr_of_holds (hk : k ∈ addrs (pre ++ rp :: post)) :
    ∀ t ∈ nodeAt (pre ++ rp :: post) k, holds t.2.1 snr = true → k = rp.addr := by
  intro t ht hh
  obtain ⟨before, x, after, hsplit, rfl, hat⟩ := nodeAt_of_mem hnd hk
  rw [hat] at ht
  cases ht
  have hx : x ∈ pre ++ rp :: post := by rw [hsplit]; simp
  rcases mem_cons.1 (perm_middle.mem_iff.1 hx) with rfl | hx
  · rfl
  · rw [hoth x hx] at hh
    cases hh

theorem unsent_removed (hst : rp'.state = rp.state) (hgap : isGap rp' = true) (h : SendsFrom (pre ++ rp :: post) u)
    (hs : ∀ k ∈ u, ∀ t ∈ nodeAt (pre ++ rp :: post) k,
      if holds t.2.1 snr then MovesOn snr t.1 t.2.1 t.2.2 else Stays snr t.1 t.2.1 t.2.2) :
    SendsFrom ((coalesce isGap pre rp' post).dropWhile isGap)
      (if u = some rp.addr then (post.find? (·.relevant)).map (·.addr) else u) := by
  split
  · rename_i hon
    subst hon
    have hm := hs rp.addr rfl _ (nodeAt_of_nodup hnd)
    rw [if_pos hrp] at hm
    exact sendsFrom_of_movesOn h hnd hrp hm ha hst hgap
  rename_i hoff
  have hkeys : (pre ++ rp' :: post).map addr = addrs (pre ++ rp :: post) := by simp [addrs, ha]
  have hsame : SendsFrom (pre ++ rp' :: post) u := by
    refine Points.congr ?_ h
    exact rel_append (forall₂_same.2 fun _ _ => ⟨rfl, id⟩)
      (.cons ⟨ha, fun h => hst.symm.trans h⟩ (forall₂_same.2 fun _ _ => ⟨rfl, id⟩))
  refine hsame.sublist (coalesce_dropWhile_sublist pre rp' post) (by rw [hkeys]; exact hnd) fun k hk => ?_
  subst hk
  refine mem_of_stays_at hnd hrp hoth ha h.mem fun t ht => ?_
  have hm := hs k rfl t ht
  rwa [if_neg fun hh => hoff (congrArg some (addr_of_holds hnd hrp hoth ha h.mem t ht hh))] at hm

theorem requested_removed [Decidable repairing] (h : ∀ k, u = some k → k ∈ addrs (pre ++ rp :: post))
    (hs : ∀ k ∈ u, ∀ t ∈ nodeAt (pre ++ rp :: post) k, if repairing ∧ holds t.2.1 snr then
        ∀ n ∈ t.2.2.find? (·.state == .requested), ∀ t ∈ nodeAt (pre ++ rp :: post) n.addr, Stays snr t.1 t.2.1 t.2.2
      else Stays snr t.1 t.2.1 t.2.2)
    (hk : (if repairing ∧ u = some rp.addr then (post.find? (·.state == .requested)).map (·.addr) else u) = some k) :
    k ∈ addrs ((coalesce isGap pre rp' post).dropWhile isGap) := by
  split at hk
  · rename_i hon
    obtain ⟨n, hn, rfl⟩ := Option.map_eq_some_iff.1 hk
    have hm := hs rp.addr hon.2 _ (nodeAt_of_nodup hnd)
    rw [if_pos ⟨hon.1, hrp⟩] at hm
    refine mem_of_stays_at hnd hrp hoth ha ?_ (hm n hn)
    exact mem_map_of_mem (mem_append_right _ (mem_cons_of_mem _ (mem_of_find?_eq_some hn)))
  · rename_i hoff
    refine mem_of_stays_at hnd hrp hoth ha (h k hk) fun t ht => ?_
    have hm := hs k hk t ht
    rwa [if_neg fun hh =>
      hoff ⟨hh.1, hk.trans (congrArg some (addr_of_holds hnd hrp hoth ha (h k hk) t ht hh.2))⟩] at hm

end

theorem CursorInv.sfwRelRemChange (h : CursorInv p) (hw : WriterInv p) (hs : HoldsSample p.changes.nodes snr)
    (hstay : (p.changes.nodes.any (holds · snr)) → UnsentStays p snr ∧ RequestedStays p snr) :
    CursorInv (p.sfwRelRemChange snr) := by
  unfold RemReader.sfwRelRemChange
  split
  · exact h
  rename_i pre rp post hfind
  obtain ⟨hn, hsample⟩ := findChange_sample hfind hs
  have hrp : holds rp snr = true := by simp [holds, first_of_sample hsample, last_of_sample hsample]
  obtain ⟨hu, hr⟩ := hstay (any_eq_true.2 ⟨rp, by simp [hn], hrp⟩)
  obtain ⟨a, b, hcov, _⟩ := hw.cover
  obtain ⟨hpool, hunsent, hrequested⟩ := h
  unfold UnsentStays at hu
  unfold RequestedStays at hr
  rw [hn] at hcov hpool hunsent hrequested hu hr
  have hoth := hcov.holds_unique hrp
  have hrel : relevant ({ rp with fragments := false, u := .range snr snr } : RrRef) = false := rfl
  have htag := dropWhile_gap_tag (joinGaps_tag hrel pre post snr)
  have haddrs := addrs_of_tag htag
  refine ⟨?_, ?_, fun k hk => ?_⟩
  · rw [haddrs]
    refine hpool.sublist (((coalesce_dropWhile_sublist _ _ _).map _).trans ?_)
    simp [addrs]
  · exact .of_tag htag.symm (unsent_removed hpool.nodup hrp hoth rfl rfl rfl hunsent hu)
  · rw [haddrs]
    refine requested_removed hpool.nodup hrp hoth ?_ hrequested hr hk
    rfl

/-! ## Runs -/

/-- The cursors as they should be: on nodes of the list, and nothing unsent before `rr_unsent_changes`, or anywhere
without it. -/
structure RemReader.CursorsOk (p : RemReader) : Prop where
  unsent : ∀ u, p.unsentChanges = some u → u ∈ p.changes.nodes.map (·.addr)
  requested : ∀ u, p.requestedChanges = some u → u ∈ p.changes.nodes.map (·.addr)
  sent : ∀ rp ∈ p.changes.nodes.takeWhile (fun rp => decide (some rp.addr ≠ p.unsentChanges)), rp.state ≠ .unsent

theorem CursorInv.cursorsOk (h : CursorInv p) : p.CursorsOk :=
  ⟨fun _ hu => (hu ▸ h.unsent).mem, h.requested, h.unsent.before⟩

/-- What the cursors ask.  A change added while nothing is unsent ends no gap before it and makes none grow; a removed
change is not in the list, or a sample and the cursors stay; a proxy without durable history restarts when what is
unsent comes behind what has been sent. -/
def KeepsCursors (p : RemReader) : WriterEvent → Prop
  | .newChange snr res _ => p.pushMode = true → p.unsentChanges = none → ∀ tail ∈ p.changes.nodes.getLast?,
      if tail.relevant then res = .allow → tail.last + 1 = snr else res ≠ .filtered
  | .remChange snr => HoldsSample p.changes.nodes snr ∧
      (p.changes.nodes.any (holds · snr) → UnsentStays p snr ∧ RequestedStays p snr)
  | .restart _ _ => p.durable = false → ResetFits p.changes.nodes
  | _ => True

instance KeepsCursors.decidable (p : RemReader) : (e : WriterEvent) → Decidable (KeepsCursors p e)
  | .newChange snr res _ => inferInstanceAs (Decidable (p.pushMode = true → p.unsentChanges = none →
      ∀ tail ∈ p.changes.nodes.getLast?, if tail.relevant then res = .allow → tail.last + 1 = snr else res ≠ .filtered))
  | .remChange snr => inferInstanceAs (Decidable (HoldsSample p.changes.nodes snr ∧
      (p.changes.nodes.any (holds · snr) → UnsentStays p snr ∧ RequestedStays p snr)))
  | .restart _ _ => inferInstanceAs (Decidable (p.durable = false → ResetFits p.changes.nodes))
  | .acknack .. | .sendData .. | .timeout .. => isTrue trivial

theorem KeepsCursors.keepsSamples (h : KeepsCursors p e) : KeepsSamples p e := by
  cases e with
  | remChange snr => exact h.1
  | _ => trivial

theorem newState_unsent (h : p.newState = .unsent) : p.pushMode = true := by
  unfold newState at h
  split at h
  · assumption
  · cases h

theorem CursorInv.step (h : CursorInv p) (hw : WriterInv p) (hk : KeepsCursors p e)
    (hs : p.step e = some q) : CursorInv q := by
  cases e with
  | newChange snr res rhTimer =>
    cases hs
    have hset : CursorInv { p with lastSeqnr := snr } := ⟨h.pool, h.unsent, h.requested⟩
    cases res with
    | allow | filtered =>
      refine hset.sfwRelNewChange (fun hst hnone tail ht => ?_) rhTimer
      have := hk (newState_unsent hst) hnone tail ht
      split <;> simp_all
    | delayed => exact hset
  | remChange snr =>
    cases hs
    exact h.sfwRelRemChange hw hk.1 hk.2
  | acknack ap final rhTimer cached =>
    obtain ⟨r, hr, rfl⟩ := Option.map_eq_some_iff.1 hs
    exact h.sfwRelAcknack hr
  | sendData active tx =>
    obtain ⟨r, hr, rfl⟩ := Option.map_eq_some_iff.1 hs
    exact h.sfwRelSendData hr
  | restart rhTimer cached =>
    cases hs
    exact h.sfwRelReset hk rhTimer
  | timeout cached =>
    cases hs
    exact h.of_same (timeout_sameList p cached)

/-- **The send cursors.**  In every run whose events keep to `KeepsCursors`, the cursors of a reader proxy are on nodes
of its list, and nothing unsent comes before `rr_unsent_changes`. -/
theorem cursorsOk_of_run {cached : Cached} {last : Int} {pushMode durable rhTimer : Bool} {delay : Nat}
    {es : List WriterEvent} (hv : cached.Valid last)
    (h : Run RemReader.step (fun p e => e.Valid p ∧ KeepsCursors p e)
      (sfwRelStart pushMode durable delay rhTimer cached last) es p) : p.CursorsOk :=
  (h.invariant (fun _ p => WriterInv p ∧ CursorInv p)
    ⟨WriterInv.start hv pushMode durable delay rhTimer, CursorInv.start cached last pushMode durable delay rhTimer⟩
    fun _ _ _ _ hi hok hs => ⟨hi.1.step hok.1 hok.2.keepsSamples hs, hi.2.step hi.1 hok.2 hs⟩).2.cursorsOk

/-- Changes are queued, the first of them is removed, the rest is sent, asked for again in part, and the proxy
restarts. -/
theorem cursorsOk_after_restart :
    ((exec RemReader.step (fun p e => e.Valid p ∧ KeepsCursors p e) (sfwRelStart true false 0 false [] 0)
      [.acknack ⟨0, [], 1⟩ true true [], .newChange 1 .allow true, .newChange 2 .filtered true,
        .newChange 3 .allow true, .newChange 4 .allow true, .remChange 1,
        .sendData true fun _ => ⟨true, false, false⟩, .acknack ⟨3, [true, false], 2⟩ true true [], .remChange 4,
        .restart true []]).get (by decide)).CursorsOk :=
  cursorsOk_of_run (show Cached.Valid [] 0 by decide) (Run.of_isSome _)

def Breaks (u : Option Nat) (nodes : List (Nat × ChangeState)) : Prop :=
  ∃ es p, Run RemReader.step (fun p e => e.Valid p) (sfwRelStart true false 0 false [] 0) es p ∧
    p.unsentChanges = u ∧ p.changes.nodes.map (fun rp => (rp.addr, rp.state)) = nodes ∧ ¬ p.CursorsOk

/-- **Every condition is needed**: a gap with the cursor on it is at the head, the change under the cursor is removed, a
change ends a gap or is filtered out behind one with nothing unsent, a proxy restarts too early. -/
theorem cursorsOk_broken :
    Breaks (some 0) [(1, .unsent), (2, .unsent)] ∧
    Breaks (some 2) [(0, .underway), (1, .unsent), (2, .unsent)] ∧
    Breaks (some 3) [(0, .underway), (1, .underway), (2, .unsent), (3, .unsent)] ∧
    Breaks none [(0, .underway), (1, .unsent)] ∧
    Breaks none [(0, .unsent)] := by
  refine ⟨?_, ?_, ?_, ?_, ?_⟩
  · exact ⟨[.newChange 1 .filtered true, .newChange 2 .allow true, .newChange 3 .allow true, .remChange 3], _,
      Run.of_isSome, by decide, by decide, fun h => absurd (h.unsent 0 (by decide)) (by decide)⟩
  · exact ⟨[.acknack ⟨0, [], 1⟩ true true [], .newChange 1 .allow true, .sendData true fun _ => ⟨true, false, false⟩,
      .newChange 2 .allow true, .newChange 3 .allow true, .remChange 2], _, Run.of_isSome, by decide,
      by decide, fun h => absurd h.sent (by decide)⟩
  · exact ⟨[.acknack ⟨0, [], 1⟩ true true [], .newChange 1 .allow true, .newChange 2 .allow true,
      .sendData true fun _ => ⟨true, false, false⟩, .newChange 4 .allow true], _, Run.of_isSome, by decide,
      by decide, fun h => absurd h.sent (by decide)⟩
  · exact ⟨[.acknack ⟨0, [], 1⟩ true true [], .newChange 1 .allow true, .newChange 2 .filtered true,
      .sendData true fun _ => ⟨true, false, false⟩, .newChange 3 .filtered true], _, Run.of_isSome,
      by decide, by decide, fun h => absurd h.sent (by decide)⟩
  · exact ⟨[.newChange 1 .allow true, .restart true []], _, Run.of_isSome, by decide, by decide,
      fun h => absurd h.sent (by decide)⟩

end Qeo.Rtps
