import QeoCore.SfrrSteps
/-!
# SfrrHeartbeat — handing on what is in order, and HEARTBEATs

What `sfr_process_samples` takes off the list, and how a HEARTBEAT moves `rw_seqnr_next`.
-/
namespace Qeo.Rtps

open RemWriter Ccref

variable {ok : NodeOk} {fits : Int → Int → Prop} {irr lost : Int → Prop} {a b : Int} {rp : RwRef} {p p' q : RemWriter}
  {add : Int → AddRes} {hp : HeartbeatSMsg} {flags : HbFlags}

/-! ## `sfr_process_samples` -/

theorem drain_cons_cases (add : Int → AddRes) (next : Int) (rp : RwRef) (rest : List RwRef) :
    drain add next (rp :: rest) = ⟨next, rp :: rest, [], 0, false⟩ ∧ (rp.settled = false ∨ rp.first ≠ next) ∨
    rp.first = next ∧ rp.settled = true ∧ ((∃ s, rp.u = .sample s ∧ rp.state = .received ∧ add s = .noData ∧
          drain add next (rp :: rest) = ⟨next, rp :: rest, [(s, .noData)], 0, true⟩) ∨
        (∃ s, rp.u = .sample s ∧ rp.state = .received ∧ add s ≠ .noData ∧
          drain add next (rp :: rest) = (drain add (s + 1) rest).cons [(s, add s)]) ∨
        ((∀ s, rp.u = .sample s → rp.state = .lost) ∧
          drain add next (rp :: rest) = (drain add (rp.last + 1) rest).cons [])) := by
  generalize hd : drain add next (rp :: rest) = d
  rw [drain] at hd
  split at hd
  · rename_i hset
    split at hd
    · rename_i hne
      exact .inl ⟨hd.symm, .inr hne⟩
    rename_i hfirst
    refine .inr ⟨by simpa using hfirst, hset, ?_⟩
    split at hd
    · rename_i s hu
      split at hd
      · rename_i hst
        split at hd
        · rename_i hno
          exact .inl ⟨s, hu, hst, hno, hd.symm⟩
        · rename_i hyes
          exact .inr (.inl ⟨s, hu, hst, hyes, hd.symm⟩)
      · rename_i hst
        refine .inr (.inr ⟨fun _ _ => ?_, by rw [last_of_sample hu, hd]⟩)
        unfold settled at hset
        revert hset hst
        cases rp.state <;> simp
    · rename_i x y hu
      exact .inr (.inr ⟨fun s hs => (by rw [hu] at hs; cases hs), by rw [last_of_range hu, hd]⟩)
  · rename_i hset
    exact .inl ⟨hd.symm, .inl (by simpa using hset)⟩

theorem settled_of_lost (h : rp.state = .lost) : rp.settled = true := by simp [settled, h]

theorem settled_of_received (h : rp.state = .received) (hf : rp.fragments = false) : rp.settled = true := by
  simp [settled, h, hf]

section
variable (add : Int → AddRes) (next : Int) (rest : List RwRef)

theorem drain_pop (hf : rp.first = next)
    (hs : rp.settled = true) (hadd : ∀ s, rp.u = .sample s → rp.state = .received → add s ≠ .noData) :
    ∃ calls, drain add next (rp :: rest) = (drain add (rp.last + 1) rest).cons calls := by
  rcases drain_cons_cases add next rp rest with ⟨_, h | h⟩ | ⟨_, _, ⟨s, hu, hst, hno, _⟩ | ⟨s, hu, _, _, he⟩ | ⟨_, he⟩⟩
  · rw [hs] at h; cases h
  · exact absurd hf h
  · exact absurd hno (hadd s hu hst)
  · exact ⟨_, by rw [last_of_sample hu]; exact he⟩
  · exact ⟨_, he⟩

theorem drain_pop_next (hf : rp.first = next)
    (hs : rp.settled = true) (hadd : ∀ s, rp.u = .sample s → rp.state = .received → add s ≠ .noData) :
    (drain add next (rp :: rest)).next = (drain add (rp.last + 1) rest).next := by
  obtain ⟨calls, he⟩ := drain_pop add next rest hf hs hadd
  rw [he]
  rfl

theorem drain_stop
    (h : rp.first ≠ next ∨ rp.settled = false ∨ ∃ s, rp.u = .sample s ∧ rp.state = .received ∧ add s = .noData) :
    (drain add next (rp :: rest)).next = next := by
  rcases drain_cons_cases add next rp rest with ⟨he, _⟩ | ⟨hf, hs, ⟨_, _, _, _, he⟩ | ⟨s, hu, hst, hadd, _⟩ | ⟨hl, _⟩⟩
  · rw [he]
  · rw [he]
  all_goals rcases h with h | h | ⟨t, hu', hst', hadd'⟩
  · exact absurd hf h
  · rw [hs] at h
    cases h
  · rw [hu] at hu'
    cases hu'
    exact absurd hadd' hadd
  · exact absurd hf h
  · rw [hs] at h
    cases h
  · have := hl t hu'
    rw [hst'] at this
    cases this

end

theorem drain_cover (add : Int → AddRes) : ∀ {nodes : List RwRef} {a : Int} (next : Int), Cover ok a nodes b →
    ∃ a', Cover ok a' (drain add next nodes).nodes b ∧
      (a' = a ∧ (drain add next nodes).next = next ∨ a' = (drain add next nodes).next)
  | [], a, _, h => ⟨a, h, .inl ⟨rfl, rfl⟩⟩
  | rp :: rest, a, next, h => by
    have hrest : ∀ calls, ∃ a', Cover ok a' ((drain add (rp.last + 1) rest).cons calls).nodes b ∧
        a' = ((drain add (rp.last + 1) rest).cons calls).next := by
      intro calls
      obtain ⟨a', hcov, ha⟩ := drain_cover add (rp.last + 1) h.2.2
      refine ⟨a', hcov, ?_⟩
      rcases ha with ⟨h1, h2⟩ | h1
      · exact h1.trans h2.symm
      · exact h1
    rcases drain_cons_cases add next rp rest with ⟨he, _⟩ | ⟨_, _, ⟨s, _, _, _, he⟩ | ⟨s, hu, _, _, he⟩ | ⟨_, he⟩⟩
    · rw [he]
      exact ⟨a, h, .inl ⟨rfl, rfl⟩⟩
    · rw [he]
      exact ⟨a, h, .inl ⟨rfl, rfl⟩⟩
    · rw [he, ← last_of_sample hu]
      obtain ⟨a', hcov, ha⟩ := hrest [(rp.last, add rp.last)]
      exact ⟨a', hcov, .inr ha⟩
    · rw [he]
      obtain ⟨a', hcov, ha⟩ := hrest []
      exact ⟨a', hcov, .inr ha⟩

theorem drain_length (add : Int → AddRes) : ∀ (nodes : List RwRef) (next : Int),
    (drain add next nodes).nodes.length + (drain add next nodes).removed = nodes.length
  | [], _ => rfl
  | rp :: rest, next => by
    rcases drain_cons_cases add next rp rest with ⟨he, _⟩ | ⟨_, _, ⟨s, _, _, _, he⟩ | ⟨s, _, _, _, he⟩ | ⟨_, he⟩⟩
    · rw [he]; rfl
    · rw [he]; rfl
    · rw [he]
      have := drain_length add rest (s + 1)
      simp only [Drain.cons, List.length_cons]
      omega
    · rw [he]
      have := drain_length add rest (rp.last + 1)
      simp only [Drain.cons, List.length_cons]
      omega

theorem sfrProcessSamples_counted (h : p.changes.Counted) : (p.sfrProcessSamples add).changes.Counted := by
  unfold Cclist.Counted at h ⊢
  have := drain_length add p.changes.nodes p.seqnrNext
  simp only [sfrProcessSamples]
  omega

/-! ## HEARTBEAT -/

structure Same (p p' : RemWriter) : Prop where
  next : p'.seqnrNext = p.seqnrNext
  changes : p'.changes = p.changes
  handed : p'.handed = p.handed
  cacheAcks : p'.cacheAcks = p.cacheAcks

theorem alive_same (p : RemWriter) : Same p p.alive := ⟨by simp, by simp, by simp, by simp⟩

theorem timeout_same (p : RemWriter) : Same p p.timeout := by
  unfold timeout sfrRelDoAck
  split
  · exact ⟨rfl, rfl, rfl, rfl⟩
  · split <;> exact ⟨rfl, rfl, rfl, rfl⟩
  · exact ⟨rfl, rfl, rfl, rfl⟩

theorem unblock_ends (add : Int → AddRes) (p : RemWriter) : ∃ q, Same p q ∧ Ends add q (p.unblock add) := by
  unfold unblock
  split
  · exact ⟨{ p with blocked := false }, ⟨rfl, rfl, rfl, rfl⟩, .inr rfl⟩
  · exact ⟨p, ⟨rfl, rfl, rfl, rfl⟩, .inl rfl⟩

def CatchesUp (p : RemWriter) (firstSn : Int) : Prop :=
  ∃ head rest, p.changes.nodes = head :: rest ∧ head.first ≤ firstSn ∧ p.seqnrNext < firstSn

/-- `q` is `p` after `heartbeatFirst`, the list of which started at `a`: it has been marked, and `rw_seqnr_next` has
moved up to `firstSn`; or first to the head and on with the samples. -/
structure HbFirst (ok : NodeOk) (add : Int → AddRes) (firstSn a b : Int) (p q : RemWriter) : Prop where
  acknacks : q.acknacks = p.acknacks
  cacheAcks : q.cacheAcks = p.cacheAcks
  counted : p.changes.Counted → q.changes.Counted
  blocked : p.blocked = true → q.blocked = true
  moved : ¬ CatchesUp p firstSn ∧ q.seqnrNext = max p.seqnrNext firstSn ∧ q.handed = p.handed ∧
      q.changes.nodes = (markLost firstSn a p.changes.nodes).1 ∧ Cover ok a q.changes.nodes b ∨
    CatchesUp p firstSn ∧ a ≤ firstSn ∧ Cover ok a (markLost firstSn a p.changes.nodes).1 b ∧
      q.seqnrNext = max (drain add a (markLost firstSn a p.changes.nodes).1).next firstSn ∧
      q.changes.nodes = (drain add a (markLost firstSn a p.changes.nodes).1).nodes ∧
      q.handed = p.handed ++ (drain add a (markLost firstSn a p.changes.nodes).1).handed

theorem raise_eq (p : RemWriter) (firstSn : Int) :
    p.raise firstSn = { p with seqnrNext := max p.seqnrNext firstSn } := by
  unfold raise
  split
  · rw [show max p.seqnrNext firstSn = firstSn by omega]
  · rw [show max p.seqnrNext firstSn = p.seqnrNext by omega]

theorem heartbeatFirst_spec (add : Int → AddRes) (hc : Closed ok fits irr lost) (hcov : Cover ok a p.changes.nodes b)
    (hlost : ∀ s, s < firstSn → lost s) : HbFirst ok add firstSn a b p (p.heartbeatFirst add firstSn) := by
  have hmark := markLost_cover hc hlost hcov
  have hcount : p.changes.Counted → p.changes.nchanges + (markLost firstSn a p.changes.nodes).2 =
      (markLost firstSn a p.changes.nodes).1.length := by
    intro hcnt
    rw [markLost_length, ← hcnt]
  rw [heartbeatFirst, raise_eq]
  unfold heartbeatLost
  split
  · rename_i hn
    have hmv : ¬ CatchesUp p firstSn := by
      rintro ⟨head, rest, hn', _⟩
      rw [hn] at hn'
      cases hn'
    have hml : p.changes.nodes = (markLost firstSn a p.changes.nodes).1 := by rw [hn]; rfl
    exact ⟨rfl, rfl, id, id, .inl ⟨hmv, rfl, rfl, hml, hcov⟩⟩
  rename_i head rest hn
  obtain rfl : head.first = a := by rw [hn] at hcov; exact hcov.1
  split
  · rename_i hup
    refine ⟨rfl, rfl, fun hcnt => ?_, fun hbl => by simp [sfrProcessSamples, hbl],
      .inr ⟨⟨head, rest, hn, hup⟩, hup.1, hmark, rfl, rfl, rfl⟩⟩
    exact sfrProcessSamples_counted (p := { p with changes := ⟨_, _⟩, seqnrNext := head.first }) (hcount hcnt)
  · rename_i hup
    have hmv : ¬ CatchesUp p firstSn := by
      rintro ⟨head', rest', hn', h⟩
      rw [hn] at hn'
      cases hn'
      exact hup h
    exact ⟨rfl, rfl, hcount, id, .inl ⟨hmv, rfl, rfl, rfl, hmark⟩⟩

theorem HbFirst.le (h : HbFirst ok add firstSn a b p q) : firstSn ≤ q.seqnrNext := by
  rcases h.moved with ⟨_, hn, _⟩ | ⟨_, _, _, hn, _⟩ <;> omega

theorem missingBefore_counted (h : list.Counted) (x : Int) : (missingBefore list x).Counted := by
  unfold missingBefore
  split
  · exact h
  · split
    · exact missingHead_counted h _ _ _
    · exact h

theorem missingAfter_counted (h : list.Counted) (x : Int) : (missingAfter list x).Counted := by
  unfold missingAfter
  split
  · exact h
  · split
    · exact missingTail_counted h _ _
    · exact h

theorem heartbeatMissing_edited (hc : Closed ok fits irr lost) (hcov : Cover ok a p.changes.nodes b) (lastSn : Int) :
    Edited ok a p (p.heartbeatMissing p.seqnrNext lastSn) := by
  unfold heartbeatMissing
  split
  · exact .refl hcov
  split
  · rename_i hemp
    have hn : p.changes.nodes = [] := by simpa using hemp
    have hcv : Cover ok p.seqnrNext (p.changes.ccrefAddGap () p.seqnrNext lastSn true .missing).nodes (lastSn + 1) :=
      addGapTail_missing hc (by rw [hn]; rfl) (by omega)
    exact .of_list hcv (Int.min_le_right _ _) fun hcnt => addGapTail_counted hcnt _ _ _
  · rename_i hemp
    have hn : p.changes.nodes ≠ [] := by simpa using hemp
    obtain ⟨b', hcv⟩ := missingAfter_cover hc (missingBefore_cover hc hcov hn p.seqnrNext) lastSn
    exact .of_list hcv (Int.le_refl _) fun hcnt => missingAfter_counted (missingBefore_counted hcnt _) _

theorem heartbeatMissing_rest (p : RemWriter) (firstSn lastSn : Int) :
    (p.heartbeatMissing firstSn lastSn).blocked = p.blocked ∧
      (p.heartbeatMissing firstSn lastSn).acknacks = p.acknacks := by
  unfold heartbeatMissing
  split
  · exact ⟨rfl, rfl⟩
  · split <;> exact ⟨rfl, rfl⟩

theorem heartbeatFlags_same (p : RemWriter) (flags : HbFlags) (wakeup : Bool) :
    Same p (p.heartbeatFlags flags wakeup).1 ∧ (p.heartbeatFlags flags wakeup).1.acknacks = p.acknacks ∧
      (p.heartbeatFlags flags wakeup).1.blocked = p.blocked := by
  unfold heartbeatFlags
  split
  · dsimp only
    split <;> exact ⟨⟨rfl, rfl, rfl, rfl⟩, rfl, rfl⟩
  · split <;> exact ⟨⟨rfl, rfl, rfl, rfl⟩, rfl, rfl⟩

theorem heartbeatAck_same (p : RemWriter) (sendAck : Bool) :
    Same p (p.heartbeatAck sendAck) ∧ (p.heartbeatAck sendAck).blocked = p.blocked ∧
      ((p.heartbeatAck sendAck).acknacks = p.acknacks ∨
        (p.heartbeatAck sendAck).acknacks = p.acknacks ++ [(p.heartbeatAck sendAck).ackNack]) := by
  have hsend : ∀ {r : RemWriter × Bool}, Same p r.1 ∧ r.1.blocked = p.blocked ∧ r.1.acknacks = p.acknacks →
      Same p (if r.2 then r.1.sfrRelDoAckNl else r.1) ∧ (if r.2 then r.1.sfrRelDoAckNl else r.1).blocked = p.blocked ∧
        ((if r.2 then r.1.sfrRelDoAckNl else r.1).acknacks = p.acknacks ∨
          (if r.2 then r.1.sfrRelDoAckNl else r.1).acknacks =
            p.acknacks ++ [(if r.2 then r.1.sfrRelDoAckNl else r.1).ackNack]) := by
    rintro r ⟨hr, hb, ha⟩
    split
    · exact ⟨⟨hr.next, hr.changes, hr.handed, hr.cacheAcks⟩, hb, .inr (by rw [← ha]; rfl)⟩
    · exact ⟨hr, hb, .inl ha⟩
  unfold heartbeatAck
  dsimp only
  refine hsend ?_
  split
  · split
    · exact ⟨⟨rfl, rfl, rfl, rfl⟩, rfl, rfl⟩
    · split <;> exact ⟨⟨rfl, rfl, rfl, rfl⟩, rfl, rfl⟩
  · exact ⟨⟨rfl, rfl, rfl, rfl⟩, rfl, rfl⟩

/-- **HEARTBEAT.**  A HEARTBEAT is ignored, or marks the list and moves `rw_seqnr_next`, notes what is missing and
perhaps sends an ACKNACK for the state it leaves. -/
theorem sfrRelHeartbeat_spec (add : Int → AddRes) (hp : HeartbeatSMsg) (flags : HbFlags) (hc : Closed ok fits irr lost)
    (hcov : Cover ok a p.changes.nodes b)
    (hlost : ∀ s, s < hp.firstSn → lost s) :
    p.ignoresHeartbeat hp flags = true ∧ Same p (p.sfrRelHeartbeat add hp flags).1 ∧
        (p.sfrRelHeartbeat add hp flags).1.acknacks = p.acknacks ∨
      p.ignoresHeartbeat hp flags = false ∧ ∃ q, HbFirst ok add hp.firstSn a b p q ∧
        Same (q.heartbeatMissing q.seqnrNext hp.lastSn) (p.sfrRelHeartbeat add hp flags).1 ∧
        (p.sfrRelHeartbeat add hp flags).1.blocked = q.blocked ∧
        ((p.sfrRelHeartbeat add hp flags).1.acknacks = p.acknacks ∨ (p.sfrRelHeartbeat add hp flags).1.acknacks =
            p.acknacks ++ [(p.sfrRelHeartbeat add hp flags).1.ackNack]) := by
  have hig : p.alive.ignoresHeartbeat hp flags = p.ignoresHeartbeat hp flags := by simp [ignoresHeartbeat]
  cases h : p.ignoresHeartbeat hp flags with
  | true =>
    have he : (p.sfrRelHeartbeat add hp flags).1 = p.alive := by simp [sfrRelHeartbeat, hig, h]
    rw [he]
    exact .inl ⟨rfl, alive_same p, alive_acknacks p⟩
  | false =>
    -- `p1`: the proxy when the changes are looked at.
    obtain ⟨hs, ha, hbl⟩ := heartbeatFlags_same { p.alive with lastHb := hp.count } flags (!p.peerAlive)
    generalize hr : heartbeatFlags { p.alive with lastHb := hp.count } flags (!p.peerAlive) = r at hs ha hbl
    have hs1 : Same p { r.1 with heartbeats := true } :=
      ⟨by rw [hs.next]; simp, by rw [hs.changes]; simp, by rw [hs.handed]; simp, by rw [hs.cacheAcks]; simp⟩
    have hq := heartbeatFirst_spec add (p := { r.1 with heartbeats := true }) (a := a) (b := b) hc
      (by rw [hs1.changes]; exact hcov) hlost
    generalize hq0 : heartbeatFirst add { r.1 with heartbeats := true } hp.firstSn = q at hq
    have hle := hq.le
    have he : (p.sfrRelHeartbeat add hp flags).1 = (q.heartbeatMissing q.seqnrNext hp.lastSn).heartbeatAck r.2 := by
      have hf : (if hp.firstSn < q.seqnrNext then { hp with firstSn := q.seqnrNext } else hp).firstSn =
          q.seqnrNext := by
        split
        · rfl
        · omega
      have hl : (if hp.firstSn < q.seqnrNext then { hp with firstSn := q.seqnrNext } else hp).lastSn = hp.lastSn := by
        split <;> rfl
      unfold sfrRelHeartbeat
      simp only [hig, h, hr, hq0, hf, hl, Bool.false_eq_true, if_false]
    obtain ⟨hack, hblk, hacks⟩ := heartbeatAck_same (q.heartbeatMissing q.seqnrNext hp.lastSn) r.2
    obtain ⟨hmb, hma⟩ := heartbeatMissing_rest q q.seqnrNext hp.lastSn
    have hacks0 : (q.heartbeatMissing q.seqnrNext hp.lastSn).acknacks = p.acknacks := by
      rw [hma, hq.acknacks]
      simpa using ha
    rw [hacks0, ← he] at hacks
    rw [← he] at hack
    rw [← he, hmb] at hblk
    refine .inr ⟨rfl, q, ⟨?_, ?_, ?_, ?_, ?_⟩, hack, hblk, hacks⟩
    · rw [hq.acknacks]
      simpa using ha
    · rw [hq.cacheAcks, hs1.cacheAcks]
    · rw [← hs1.changes]
      exact hq.counted
    · intro hb
      refine hq.blocked ?_
      rw [hbl]
      simpa using hb
    · have hm := hq.moved
      unfold CatchesUp at hm ⊢
      rwa [hs1.next, hs1.changes, hs1.handed] at hm

end Qeo.Rtps
