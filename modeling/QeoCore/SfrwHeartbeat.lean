import QeoCore.Sfrr
import QeoCore.SfrwRange
/-!
# SfrwHeartbeat — the range a HEARTBEAT announces

`sfw_send_heartbeat` combines what the history cache holds with what is queued for the readers it counts.  Zero stands
for "no range yet" while the queues are combined, and is then compared like a sequence number.
-/
namespace Qeo.Rtps

open List

variable {readers : List HbReader}

structure HbReader where
  rrp : RemReader
  /-- `rr_reliable`. -/
  reliable : Bool
  /-- `rr_no_mcast`. -/
  noMcast : Bool
  /-- `p_local` of its participant. -/
  pLocal : Bool
  counted : rrp.changes.Counted
  cover : ∃ a b, 0 < a ∧ WCover a rrp.changes.nodes b

structure HbWriter where
  remReaders : List HbReader
  cached : List Int
  /-- `hc_last_seqnr`. -/
  lastSeqnr : Int
  heartbeats : Nat
  rhTimer : Bool
  positive : ∀ s ∈ cached, 0 < s ∧ s ≤ lastSeqnr
  nonneg : 0 ≤ lastSeqnr

open HbWriter

/-- A submessage handed to `rtps_msg_add_heartbeat` or `rtps_msg_add_heartbeat_frag`.  Without a reader it goes to
`entity_id_unknown`, which is every reader. -/
inductive HbTx where
  | heartbeat (reader : Option HbReader) (hp : HeartbeatSMsg) (flags : HbFlags)
  | heartbeatFrag (reader : HbReader) (writerSn : Int) (count : Nat)

def hcSeqnrInfo (cached : List Int) (lastSeqnr : Int) : Int × Int := (cached.headD (lastSeqnr + 1), lastSeqnr)

def qSeqnrInfo (list : Cclist Nat) : Option (Int × Int) :=
  if list.nchanges ≠ 0 then list.nodes.head?.bind fun head => list.nodes.getLast?.map fun tail =>
    (head.first, tail.last)
  else none

def HbReader.announced (alive : Bool) (rrp : HbReader) : Bool :=
  alive || (rrp.reliable && rrp.rrp.tstate == .announcing)

structure HbScan where
  nreaders : Nat
  noMcast : Bool
  drp : Option HbReader
  minMc : Int
  maxMc : Int
  frags : List HbTx

def HbScan.add (alive : Bool) (s : HbScan) (rrp : HbReader) : HbScan :=
  if rrp.announced alive then
    let s := { s with
      nreaders := s.nreaders + 1
      noMcast := s.noMcast || rrp.noMcast || !rrp.pLocal
      drp := some rrp
      frags := s.frags ++ (rrp.rrp.changes.nodes.filter (·.fragments)).map fun rp => .heartbeatFrag rrp rp.first 0 }
    match qSeqnrInfo rrp.rrp.changes with
    | some (min, max) =>
      { s with
        minMc := if s.minMc = 0 ∨ min < s.minMc then min else s.minMc
        maxMc := if s.maxMc = 0 ∨ s.maxMc < max then max else s.maxMc }
    | none => s
  else s

def HbTx.number (count : Nat) : HbTx → HbTx
  | .heartbeat reader hp flags => .heartbeat reader { hp with count } flags
  | .heartbeatFrag reader snr _ => .heartbeatFrag reader snr count

namespace HbWriter

variable (wp : HbWriter) (alive : Bool)

def scan : HbScan := wp.remReaders.foldl (HbScan.add alive) ⟨0, false, none, 0, 0, []⟩

def heartbeatMsgs : List HbTx :=
  let s := wp.scan alive
  let snr := hcSeqnrInfo wp.cached wp.lastSeqnr
  -- If single destination or multicast possible, send single message.
  if s.nreaders = 1 ∨ (s.noMcast = false ∧ 1 < s.nreaders) then
    let drp := if 1 < s.nreaders then none else s.drp
    let snrMin := if s.minMc < snr.1 then s.minMc else snr.1
    let snrMax := if s.maxMc < snr.2 then s.maxMc else snr.2
    [.heartbeat drp ⟨snrMin, snrMax, 0⟩ ⟨alive, alive⟩]
  else
    (wp.remReaders.filter (·.announced alive)).filterMap fun rrp =>
      (qSeqnrInfo rrp.rrp.changes).map fun r => .heartbeat (some rrp) ⟨r.1, r.2, 0⟩ ⟨alive, alive⟩

def sfwSendHeartbeat : HbWriter × List HbTx × Bool :=
  let s := wp.scan alive
  if alive = false ∧ s.nreaders = 0 then ({ wp with rhTimer := false }, [], false)
  else
    let msgs := s.frags ++ wp.heartbeatMsgs alive
    ({ wp with heartbeats := wp.heartbeats + msgs.length },
     (msgs.zipIdx (wp.heartbeats + 1)).map fun (m, count) => m.number count, true)

end HbWriter

/-! ## The least and the greatest number, with zero for none -/

def Best (lt : Int → Int → Prop) (m : Int) (l : List Int) : Prop := (l = [] ∧ m = 0) ∨ (m ∈ l ∧ ∀ x ∈ l, ¬ lt x m)

theorem Best.concat [DecidableRel lt] [IsTrans Int lt] [Std.Irrefl lt]
    (h : Best lt m l) (hl : ∀ y ∈ l, y ≠ 0) : Best lt (if m = 0 ∨ lt x m then x else m) (l ++ [x]) := by
  refine .inr ?_
  split
  · rename_i hx
    refine ⟨by simp, fun y hy hlt => ?_⟩
    rcases mem_append.1 hy with hy | hy
    · rcases h with ⟨rfl, _⟩ | ⟨hm, hbest⟩
      · cases hy
      · exact hbest y hy (IsTrans.trans y x m hlt (hx.resolve_left (hl m hm)))
    · rw [mem_singleton.1 hy] at hlt
      exact Std.Irrefl.irrefl x hlt
  rename_i hx
  rcases h with ⟨_, hm⟩ | ⟨hm, hbest⟩
  · exact absurd (.inl hm) hx
  refine ⟨mem_append_left _ hm, fun y hy hlt => ?_⟩
  rcases mem_append.1 hy with hy | hy
  · exact hbest y hy hlt
  · rw [mem_singleton.1 hy] at hlt
    exact hx (.inr hlt)

/-! ## Queues -/

variable {wp : HbWriter} {alive : Bool} {rrp : HbReader}

theorem qSeqnrInfo_spec (rrp : HbReader) :
    (rrp.rrp.changes.nodes = [] ∧ qSeqnrInfo rrp.rrp.changes = none) ∨
    ∃ min max, qSeqnrInfo rrp.rrp.changes = some (min, max) ∧ 0 < min ∧ min ≤ max ∧
      (∃ head ∈ rrp.rrp.changes.nodes.head?, min = head.first) ∧ ∀ rp ∈ rrp.rrp.changes.nodes, min ≤ rp.first := by
  obtain ⟨a, b, ha, hcov⟩ := rrp.cover
  have hc := rrp.counted
  unfold Cclist.Counted at hc
  unfold qSeqnrInfo
  cases hn : rrp.rrp.changes.nodes with
  | nil => exact .inl ⟨rfl, by simp [hc]⟩
  | cons head rest =>
    refine .inr ?_
    rw [hn] at hc hcov
    obtain ⟨tail, ht⟩ := Option.isSome_iff_exists.1 (getLast?_isSome.2 (cons_ne_nil head rest))
    have hup (rp : RrRef) (h : rp.first ≤ rp.last) : rp.first ≤ rp.last + 1 := by omega
    have hb := Tiles.Tiled.mem_bounds hup hcov
    have htail := hb tail (mem_of_getLast? ht)
    have hle := hcov.all tail (mem_of_getLast? ht)
    have hhead : head.first = a := hcov.1
    refine ⟨head.first, tail.last, ?_, by omega, by omega, ⟨head, rfl, rfl⟩, fun rp hrp => ?_⟩
    · rw [if_pos (by simp [hc]), ht]
      rfl
    · have := (hb rp hrp).1
      omega

def ranges (alive : Bool) (readers : List HbReader) : List (Int × Int) :=
  (readers.filter (·.announced alive)).filterMap fun rrp => qSeqnrInfo rrp.rrp.changes

theorem ranges_positive (h : r ∈ ranges alive readers) : 0 < r.1 ∧ r.1 ≤ r.2 := by
  obtain ⟨rrp, _, hr⟩ := mem_filterMap.1 h
  rcases qSeqnrInfo_spec rrp with ⟨_, hn⟩ | ⟨min, max, hs, h0, hle, _⟩
  · rw [hn] at hr
    cases hr
  · rw [hs] at hr
    cases hr
    exact ⟨h0, hle⟩

structure HbScan.Spec (alive : Bool) (readers : List HbReader) (s : HbScan) : Prop where
  nreaders : s.nreaders = (readers.filter (·.announced alive)).length
  noMcast : s.noMcast = (readers.filter (·.announced alive)).any fun rrp => rrp.noMcast || !rrp.pLocal
  drp : s.drp = (readers.filter (·.announced alive)).getLast?
  minMc : Best (· < ·) s.minMc ((ranges alive readers).map (·.1))
  maxMc : Best (· > ·) s.maxMc ((ranges alive readers).map (·.2))
  frags : ∀ m ∈ s.frags, ∀ reader hp flags, m ≠ .heartbeat reader hp flags

theorem HbScan.Spec.add {s : HbScan} (h : s.Spec alive readers) (rrp : HbReader) :
    (s.add alive rrp).Spec alive (readers ++ [rrp]) := by
  unfold HbScan.add
  split
  · rename_i ha
    have hfilter : (readers ++ [rrp]).filter (·.announced alive) = readers.filter (·.announced alive) ++ [rrp] := by
      simp [filter_append, ha]
    have hfrags : ∀ m ∈ s.frags ++ (rrp.rrp.changes.nodes.filter (·.fragments)).map fun rp =>
        HbTx.heartbeatFrag rrp rp.first 0, ∀ reader hp flags, m ≠ .heartbeat reader hp flags := by
      intro m hm reader hp flags he
      rcases mem_append.1 hm with hm | hm
      · exact h.frags m hm reader hp flags he
      · obtain ⟨rp, _, hrp⟩ := mem_map.1 hm
        rw [he] at hrp
        cases hrp
    have hn : s.nreaders + 1 = ((readers ++ [rrp]).filter (·.announced alive)).length := by
      rw [hfilter, h.nreaders]
      simp
    have hm : (s.noMcast || rrp.noMcast || !rrp.pLocal) =
        ((readers ++ [rrp]).filter (·.announced alive)).any fun rrp => rrp.noMcast || !rrp.pLocal := by
      rw [hfilter, h.noMcast]
      simp [Bool.or_assoc]
    have hd : some rrp = ((readers ++ [rrp]).filter (·.announced alive)).getLast? := by rw [hfilter, getLast?_concat]
    split
    · rename_i min max hq
      have hr : ranges alive (readers ++ [rrp]) = ranges alive readers ++ [(min, max)] := by
        simp [ranges, hfilter, hq]
      refine ⟨hn, hm, hd, ?_, ?_, hfrags⟩ <;> rw [hr, map_append]
      · exact h.minMc.concat (forall_mem_map.2 fun r hr => by have := ranges_positive hr; omega)
      · exact h.maxMc.concat (forall_mem_map.2 fun r hr => by have := ranges_positive hr; omega)
    · rename_i hq
      have hr : ranges alive (readers ++ [rrp]) = ranges alive readers := by simp [ranges, hfilter, hq]
      exact ⟨hn, hm, hd, by rw [hr]; exact h.minMc, by rw [hr]; exact h.maxMc, hfrags⟩
  · rename_i ha
    have hfilter : (readers ++ [rrp]).filter (·.announced alive) = readers.filter (·.announced alive) := by
      simp [filter_append, ha]
    have hr : ranges alive (readers ++ [rrp]) = ranges alive readers := by rw [ranges, hfilter, ranges]
    exact ⟨by rw [hfilter]; exact h.nreaders, by rw [hfilter]; exact h.noMcast, by rw [hfilter]; exact h.drp,
      by rw [hr]; exact h.minMc, by rw [hr]; exact h.maxMc, h.frags⟩

theorem HbScan.Spec.foldl : ∀ {readers pre : List HbReader} {s : HbScan}, s.Spec alive pre →
    (readers.foldl (HbScan.add alive) s).Spec alive (pre ++ readers)
  | [], _, _, h => by
    rw [append_nil]
    exact h
  | rrp :: readers, pre, s, h => by
    have ih : (readers.foldl (HbScan.add alive) (s.add alive rrp)).Spec alive (pre ++ [rrp] ++ readers) :=
      (h.add rrp).foldl
    rwa [append_assoc] at ih

theorem scan_spec (wp : HbWriter) (alive : Bool) : (wp.scan alive).Spec alive wp.remReaders := by
  have h0 : HbScan.Spec alive [] ⟨0, false, none, 0, 0, []⟩ :=
    ⟨rfl, rfl, rfl, .inl ⟨rfl, rfl⟩, .inl ⟨rfl, rfl⟩, fun m hm => by cases hm⟩
  exact h0.foldl

/-! ## What is sent -/

theorem heartbeatMsgs_of_none (h : (wp.scan alive).nreaders = 0) : wp.heartbeatMsgs alive = [] := by
  have hf : wp.remReaders.filter (·.announced alive) = [] :=
    length_eq_zero_iff.1 ((scan_spec wp alive).nreaders.symm.trans h)
  simp [heartbeatMsgs, h, hf]

theorem mem_sent_iff :
    (∃ count, .heartbeat reader ⟨first, last, count⟩ flags ∈ (wp.sfwSendHeartbeat alive).2.1) ↔
      ∃ count, .heartbeat reader ⟨first, last, count⟩ flags ∈ wp.heartbeatMsgs alive := by
  unfold sfwSendHeartbeat
  dsimp only
  split
  · rename_i h
    rw [heartbeatMsgs_of_none h.2]
  constructor
  · rintro ⟨count, hmem⟩
    obtain ⟨⟨m, i⟩, hm, he⟩ := mem_map.1 hmem
    have hm' : m ∈ (wp.scan alive).frags ++ wp.heartbeatMsgs alive := by
      rw [← zipIdx_map_fst (wp.heartbeats + 1) ((wp.scan alive).frags ++ wp.heartbeatMsgs alive)]
      exact mem_map_of_mem hm
    cases m with
    | heartbeat reader' hp' flags' =>
      cases he
      rcases mem_append.1 hm' with hf | hm'
      · exact absurd rfl ((scan_spec wp alive).frags _ hf reader hp' flags)
      · exact ⟨hp'.count, hm'⟩
    | heartbeatFrag reader' snr c => cases he
  rintro ⟨count, hmem⟩
  have hm : .heartbeat reader ⟨first, last, count⟩ flags ∈
      (((wp.scan alive).frags ++ wp.heartbeatMsgs alive).zipIdx (wp.heartbeats + 1)).map Prod.fst := by
    rw [zipIdx_map_fst]
    exact mem_append_right _ hmem
  obtain ⟨⟨m, i⟩, hm, he⟩ := mem_map.1 hm
  subst he
  exact ⟨i, mem_map.2 ⟨_, hm, rfl⟩⟩

def HbWriter.counted (wp : HbWriter) (alive : Bool) : List HbReader := wp.remReaders.filter (·.announced alive)

def HbWriter.Single (wp : HbWriter) (alive : Bool) : Prop :=
  (wp.counted alive).length = 1 ∨
    (1 < (wp.counted alive).length ∧ ∀ rrp ∈ wp.counted alive, rrp.noMcast = false ∧ rrp.pLocal = true)

theorem single_iff : ((wp.scan alive).nreaders = 1 ∨ ((wp.scan alive).noMcast = false ∧ 1 < (wp.scan alive).nreaders)) ↔
    wp.Single alive := by
  have h := scan_spec wp alive
  rw [h.nreaders, h.noMcast]
  simp only [any_eq_false, Bool.or_eq_true, Bool.not_eq_true', not_or, Bool.not_eq_true, Bool.not_eq_false]
  exact or_congr Iff.rfl and_comm

theorem heartbeatMsgs_single (h : wp.Single alive) : ∃ reader first last,
    wp.heartbeatMsgs alive = [.heartbeat reader ⟨first, last, 0⟩ ⟨alive, alive⟩] ∧
    (reader = none ∧ 1 < (wp.counted alive).length ∨ ∃ rrp, reader = some rrp ∧ wp.counted alive = [rrp]) ∧
    first = min (wp.scan alive).minMc (hcSeqnrInfo wp.cached wp.lastSeqnr).1 ∧
    last = min (wp.scan alive).maxMc wp.lastSeqnr := by
  have hs := scan_spec wp alive
  have hmin (x y : Int) : (if x < y then x else y) = min x y := by
    split <;> omega
  refine ⟨if 1 < (wp.scan alive).nreaders then none else (wp.scan alive).drp, _, _,
    by rw [heartbeatMsgs, if_pos (single_iff.2 h)]; rfl, ?_, hmin _ _, hmin _ _⟩
  rw [hs.nreaders]
  split
  · exact .inl ⟨rfl, ‹_›⟩
  rename_i hle
  have hone : (wp.counted alive).length = 1 := by
    rcases h with h | h
    · exact h
    · exact absurd h.1 hle
  obtain ⟨rrp, hr⟩ := length_eq_one_iff.1 hone
  exact .inr ⟨rrp, by rw [hs.drp, ← counted, hr]; rfl, hr⟩

theorem heartbeatMsgs_individual (h : ¬ wp.Single alive) : wp.heartbeatMsgs alive =
    (wp.counted alive).filterMap fun rrp =>
      (qSeqnrInfo rrp.rrp.changes).map fun r => .heartbeat (some rrp) ⟨r.1, r.2, 0⟩ ⟨alive, alive⟩ := by
  rw [heartbeatMsgs, if_neg (mt single_iff.1 h)]
  rfl

theorem mem_ranges (h : rrp ∈ readers) (ha : rrp.announced alive = true)
    (hq : qSeqnrInfo rrp.rrp.changes = some r) : r ∈ ranges alive readers :=
  mem_filterMap.2 ⟨rrp, mem_filter.2 ⟨h, ha⟩, hq⟩

theorem minMc_le (h : rrp ∈ wp.remReaders) (ha : rrp.announced alive = true) :
    ∀ rp ∈ rrp.rrp.changes.nodes, (wp.scan alive).minMc ≤ rp.first := by
  intro rp hrp
  rcases qSeqnrInfo_spec rrp with ⟨hn, _⟩ | ⟨min, max, hq, _, _, _, hle⟩
  · rw [hn] at hrp
    cases hrp
  have hmem : min ∈ (ranges alive wp.remReaders).map (·.1) := mem_map.2 ⟨_, mem_ranges h ha hq, rfl⟩
  rcases (scan_spec wp alive).minMc with ⟨hnil, _⟩ | ⟨_, hbest⟩
  · rw [hnil] at hmem
    cases hmem
  · have := hbest min hmem
    have := hle rp hrp
    omega

def HbWriter.SomeQueued (wp : HbWriter) (alive : Bool) : Prop := ∃ rrp ∈ wp.counted alive, rrp.rrp.changes.nodes ≠ []

theorem ranges_ne_nil_iff : ranges alive wp.remReaders ≠ [] ↔ wp.SomeQueued alive := by
  constructor
  · intro h
    obtain ⟨r, hr⟩ := exists_mem_of_ne_nil _ h
    obtain ⟨rrp, hrrp, hq⟩ := mem_filterMap.1 hr
    refine ⟨rrp, hrrp, fun hn => ?_⟩
    rcases qSeqnrInfo_spec rrp with ⟨_, hnone⟩ | ⟨_, _, _, _, _, ⟨head, hh, _⟩, _⟩
    · rw [hnone] at hq
      cases hq
    · rw [hn] at hh
      cases hh
  · rintro ⟨rrp, hrrp, hn⟩
    obtain ⟨hmem, ha⟩ := mem_filter.1 hrrp
    rcases qSeqnrInfo_spec rrp with ⟨hnil, _⟩ | ⟨min, max, hq, _⟩
    · exact absurd hnil hn
    · exact ne_nil_of_mem (mem_ranges hmem ha hq)

theorem scan_range (h : wp.SomeQueued alive) : 0 < (wp.scan alive).minMc ∧
    (wp.scan alive).minMc ≤ (wp.scan alive).maxMc ∧
    ∃ rrp ∈ wp.counted alive, ∃ head ∈ rrp.rrp.changes.nodes.head?, (wp.scan alive).minMc = head.first := by
  have hne := ranges_ne_nil_iff.2 h
  have hs := scan_spec wp alive
  obtain ⟨hmin, _⟩ := hs.minMc.resolve_left fun h => hne (map_eq_nil_iff.1 h.1)
  obtain ⟨_, hmax⟩ := hs.maxMc.resolve_left fun h => hne (map_eq_nil_iff.1 h.1)
  obtain ⟨r, hr, he⟩ := mem_map.1 hmin
  have hpos := ranges_positive hr
  have hle := hmax r.2 (mem_map_of_mem hr)
  refine ⟨by omega, by omega, ?_⟩
  obtain ⟨rrp, hrrp, hq⟩ := mem_filterMap.1 hr
  refine ⟨rrp, hrrp, ?_⟩
  rcases qSeqnrInfo_spec rrp with ⟨_, hnone⟩ | ⟨min, max, hq', _, _, ⟨head, hh, hhead⟩, _⟩
  · rw [hnone] at hq
    cases hq
  · rw [hq'] at hq
    cases hq
    exact ⟨head, hh, he.symm.trans hhead⟩

theorem scan_none (h : ¬ wp.SomeQueued alive) : (wp.scan alive).minMc = 0 := by
  have hnil : ranges alive wp.remReaders = [] := by
    by_contra hne
    exact h (ranges_ne_nil_iff.1 hne)
  rcases (scan_spec wp alive).minMc with ⟨_, h0⟩ | ⟨hmem, _⟩
  · exact h0
  · rw [hnil] at hmem
    cases hmem

theorem hcSeqnrInfo_spec (wp : HbWriter) : 0 < (hcSeqnrInfo wp.cached wp.lastSeqnr).1 ∧
    (hcSeqnrInfo wp.cached wp.lastSeqnr).1 ≤ wp.lastSeqnr + 1 := by
  have h0 := wp.nonneg
  have hpos := wp.positive
  unfold hcSeqnrInfo
  cases hc : wp.cached with
  | nil => simp only [headD_nil]; omega
  | cons s rest =>
    have := hpos s (by simp [hc])
    simp only [headD_cons]
    omega

/-! ## Writer and readers agree -/

/-- Every HEARTBEAT that is sent passes the checks of `submsg_rx_heartbeat`, and it starts with or before each change
that is queued for a reader it is addressed to. -/
def HbWriter.HeartbeatsOk (wp : HbWriter) (alive : Bool) : Prop :=
  ∀ reader hp flags, .heartbeat reader hp flags ∈ (wp.sfwSendHeartbeat alive).2.1 →
    hp.Valid ∧ ∀ rrp ∈ wp.remReaders, (reader = none ∨ reader = some rrp) →
      ∀ rp ∈ rrp.rrp.changes.nodes, rp.relevant = true → hp.firstSn ≤ rp.first

theorem heartbeatsOk_iff_made : wp.HeartbeatsOk alive ↔
    ∀ reader first last count flags, .heartbeat reader ⟨first, last, count⟩ flags ∈ wp.heartbeatMsgs alive →
      HeartbeatSMsg.Valid ⟨first, last, count⟩ ∧ ∀ rrp ∈ wp.remReaders, (reader = none ∨ reader = some rrp) →
        ∀ rp ∈ rrp.rrp.changes.nodes, rp.relevant = true → first ≤ rp.first := by
  constructor
  · intro h reader first last count flags hm
    obtain ⟨c, hc⟩ := mem_sent_iff.2 ⟨count, hm⟩
    exact h reader ⟨first, last, c⟩ flags hc
  · rintro h reader ⟨first, last, count⟩ flags hm
    obtain ⟨c, hc⟩ := mem_sent_iff.1 ⟨count, hm⟩
    exact h reader first last c flags hc

theorem heartbeatsOk_individual (h : ¬ wp.Single alive) : wp.HeartbeatsOk alive := by
  rw [heartbeatsOk_iff_made, heartbeatMsgs_individual h]
  intro reader first last count flags hm
  obtain ⟨rrp, _, hq⟩ := mem_filterMap.1 hm
  rcases qSeqnrInfo_spec rrp with ⟨_, hnone⟩ | ⟨min, max, hs, h0, hle, _, hnodes⟩
  · rw [hnone] at hq
    cases hq
  rw [hs] at hq
  cases hq
  refine ⟨⟨h0, by simp only; omega, by simp only; omega⟩, fun r _ hr rp hrp _ => ?_⟩
  obtain rfl : rrp = r := Option.some.inj (hr.resolve_left nofun)
  exact hnodes rp hrp

/-- Changes that are queued for readers that are not counted are still in the cache, or come behind what is queued for
one that is. -/
def HbWriter.OthersBehind (wp : HbWriter) (alive : Bool) : Prop :=
  ∀ rrp ∈ wp.remReaders, rrp.announced alive = false → ∀ rp ∈ rrp.rrp.changes.nodes, rp.relevant = true →
    (hcSeqnrInfo wp.cached wp.lastSeqnr).1 ≤ rp.first ∨
      ∃ c ∈ wp.counted alive, ∃ head ∈ c.rrp.changes.nodes.head?, head.first ≤ rp.first

theorem heartbeatsOk_single (h : wp.Single alive) : wp.HeartbeatsOk alive ↔
    wp.SomeQueued alive ∧ (1 < (wp.counted alive).length → wp.OthersBehind alive) := by
  obtain ⟨reader, first, last, hmsgs, hreader, rfl, rfl⟩ := heartbeatMsgs_single h
  obtain ⟨hc0, hc1⟩ := hcSeqnrInfo_spec wp
  rw [heartbeatsOk_iff_made, hmsgs]
  constructor
  · intro hok
    obtain ⟨hv, haddr⟩ := hok _ _ _ _ _ (mem_singleton.2 rfl)
    have hq : wp.SomeQueued alive := by
      by_contra hn
      have := hv.1
      simp only [scan_none hn] at this
      omega
    refine ⟨hq, fun hlt rrp hrrp _ rp hrp hrel => ?_⟩
    have hnone : reader = none := by
      rcases hreader with ⟨hr, _⟩ | ⟨r, _, hr⟩
      · exact hr
      · rw [hr] at hlt
        exact absurd hlt (by simp)
    have hle := haddr rrp hrrp (.inl hnone) rp hrp hrel
    obtain ⟨_, _, c, hcm, head, hh, hmin⟩ := scan_range hq
    by_cases hcache : (hcSeqnrInfo wp.cached wp.lastSeqnr).1 ≤ rp.first
    · exact .inl hcache
    · exact .inr ⟨c, hcm, head, hh, by omega⟩
  rintro ⟨hq, hoth⟩ reader' first' last' count flags hm
  cases mem_singleton.1 hm
  obtain ⟨hpos, hle, _⟩ := scan_range hq
  refine ⟨⟨by simp only; omega, by simp only; omega, by simp only; omega⟩, fun rrp hrrp hto rp hrp hrel => ?_⟩
  by_cases ha : rrp.announced alive = true
  · have := minMc_le hrrp ha rp hrp
    omega
  rcases hreader with ⟨_, hlt⟩ | ⟨r, rfl, hr⟩
  · rcases hoth hlt rrp hrrp (by simpa using ha) rp hrp hrel with hc | ⟨c, hc, head, hh, hhead⟩
    · omega
    · obtain ⟨hcm, hca⟩ := mem_filter.1 hc
      have := minMc_le hcm hca head (mem_of_mem_head? hh)
      omega
  · obtain rfl : r = rrp := Option.some.inj (hto.resolve_left nofun)
    have hmem : r ∈ wp.counted alive := by rw [hr]; simp
    exact absurd (mem_filter.1 hmem).2 ha

/-- **Writer and readers agree on HEARTBEATs** exactly when a single HEARTBEAT has a queue to take its range from, and
one by multicast starts with or before what is queued for readers that are not counted. -/
theorem heartbeatsOk_iff (wp : HbWriter) (alive : Bool) : wp.HeartbeatsOk alive ↔
    (wp.Single alive → wp.SomeQueued alive ∧ (1 < (wp.counted alive).length → wp.OthersBehind alive)) := by
  by_cases h : wp.Single alive
  · rw [heartbeatsOk_single h]
    exact ⟨fun hok _ => hok, fun hok => hok h⟩
  · exact ⟨fun _ hs => absurd hs h, fun _ => heartbeatsOk_individual h⟩

def idleWriter : HbWriter where
  remReaders := [⟨RemReader.sfwRelStart true false 0 false [] 5, true, false, true, rfl, 6, 6, by decide, rfl⟩]
  cached := [5]
  lastSeqnr := 5
  heartbeats := 0
  rhTimer := false
  positive := by decide
  nonneg := by decide

/-- **Nothing is queued.**  The sign of life goes from 0 to 0, and the reader throws it away. -/
theorem heartbeatsOk_broken :
    .heartbeat idleWriter.remReaders.head? ⟨0, 0, 1⟩ ⟨true, true⟩ ∈ (idleWriter.sfwSendHeartbeat true).2.1 ∧
      ¬ idleWriter.HeartbeatsOk true := by
  have hm : .heartbeat idleWriter.remReaders.head? ⟨0, 0, 1⟩ ⟨true, true⟩ ∈ (idleWriter.sfwSendHeartbeat true).2.1 :=
    mem_singleton.2 rfl
  exact ⟨hm, fun h => absurd (h _ _ _ hm).1 (by decide)⟩

end Qeo.Rtps
