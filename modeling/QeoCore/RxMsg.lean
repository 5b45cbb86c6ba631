import QeoCore.Relay
import QeoCore.SfrrRange
/-!
# RxMsg — HEARTBEAT and GAP at the receiver

`submsg_rx_heartbeat` and `submsg_rx_gap` hand one message to every proxy in turn, and the handlers write to it:
`sfr_rel_heartbeat` raises `first_sn` to `rw_seqnr_next`, `sfr_rel_gap_range` moves `gap_start` along.
-/
namespace Qeo.Rtps

open List Relay Trace RemWriter

/-! ## The receiver -/

structure EntityId where
  key : BitVec 24
  kind : BitVec 8
  deriving DecidableEq

def EntityId.unknown (eid : EntityId) : Bool := eid.key == 0 && eid.kind == 0

def EntityId.writer (eid : EntityId) : Bool := eid.kind &&& 0x3f == 2 || eid.kind &&& 0x3f == 3

def EntityId.reader (eid : EntityId) : Bool := eid.kind &&& 0x3f == 7 || eid.kind &&& 0x3f == 4

structure ChainedWriter where
  readerId : EntityId
  stateful : Bool
  reliable : Bool
  add : Int → AddRes
  rw : RemWriter

/-- What the receiver consults: its own prefix, the one the message is for if it has said so, and the chain of proxies
of each writer of the peer, empty for a writer it does not know. -/
structure Receiver where
  guidPrefix : BitVec 96
  dstGuidPrefix : Option (BitVec 96)
  proxies : EntityId → List ChainedWriter

inductive RxError where
  | invSubmsg | unknDest

def submsgRx {μ : Type} (valid : Bool) (handle : ChainedWriter → μ → ChainedWriter × μ) (rxp : Receiver)
    (writerId readerId : EntityId) (m : μ) : Except RxError (List ChainedWriter) :=
  if !valid || !writerId.writer then .error .invSubmsg
  else if rxp.dstGuidPrefix.any (· != rxp.guidPrefix) || (rxp.proxies writerId).isEmpty then .error .unknDest
  else if readerId.unknown then .ok (relay handle (rxp.proxies writerId) m).1
  else if !readerId.reader then .error .invSubmsg
  else match (rxp.proxies writerId).span fun rwp => rwp.readerId != readerId with
    | (_, []) => .error .unknDest
    | (pre, rwp :: post) => .ok (pre ++ (handle rwp m).1 :: post)

def rxHeartbeat (flags : HbFlags) (rwp : ChainedWriter) (hp : HeartbeatSMsg) : ChainedWriter × HeartbeatSMsg :=
  if rwp.stateful && rwp.reliable then
    let r := rwp.rw.sfrRelHeartbeat rwp.add hp flags
    ({ rwp with rw := r.1 }, r.2)
  else (rwp, hp)

def rxGap (rwp : ChainedWriter) (gp : GapSMsg) : ChainedWriter × GapSMsg :=
  let r := rwp.rw.sfrRelGap rwp.add gp
  ({ rwp with rw := r.1 }, r.2)

def submsgRxHeartbeat (rxp : Receiver) (writerId readerId : EntityId) (flags : HbFlags) (hp : HeartbeatSMsg) :
    Except RxError (List ChainedWriter) :=
  submsgRx (decide hp.Valid) (rxHeartbeat flags) rxp writerId readerId hp

def submsgRxGap (rxp : Receiver) (writerId readerId : EntityId) (gp : GapSMsg) : Except RxError (List ChainedWriter) :=
  submsgRx (decide gp.Valid) rxGap rxp writerId readerId gp

structure Receiver.Accepts (rxp : Receiver) (writerId : EntityId) : Prop where
  writer : writerId.writer = true
  destination : rxp.dstGuidPrefix.any (· != rxp.guidPrefix) = false

theorem submsgRx_unknown {handle : ChainedWriter → μ → ChainedWriter × μ}
    {m : μ} (h : rxp.Accepts writerId) (hl : rxp.proxies writerId ≠ []) (hr : readerId.unknown = true) :
    submsgRx true handle rxp writerId readerId m = .ok (relay handle (rxp.proxies writerId) m).1 := by
  have hl' : (rxp.proxies writerId).isEmpty = false := by simpa using hl
  simp [submsgRx, h.writer, h.destination, hl', hr]

/-! ## What a HEARTBEAT is left as -/

variable {p : RemWriter} {add : Int → AddRes} {hp : HeartbeatSMsg} {flags : HbFlags} {gp : GapSMsg}

/-- Where delivery stops when everything below `firstSn` that is not received counts as lost: it starts at `next`, and
at `firstSn` goes on as usual. -/
def catchUp (add : Int → AddRes) (firstSn : Int) : Int → List RwRef → Int
  | next, [] => next
  | next, rp :: rest =>
    if firstSn ≤ next then (drain add next (rp :: rest)).next
    else if rp.first ≠ next then next
    else match rp.u with
      | .sample s =>
        if rp.state = .received ∧ ¬ rp.fragments ∧ add s = .noData then next else catchUp add firstSn (s + 1) rest
      | .range _ b =>
        if rp.state = .received ∧ rp.fragments then next
        else if firstSn ≤ b then (drain add firstSn (.gap () firstSn b rp.state :: rest)).next
        else catchUp add firstSn (b + 1) rest

theorem drain_markLost_next (add : Int → AddRes) (firstSn : Int) : ∀ (nodes : List RwRef) (next : Int),
    (drain add next (markLost firstSn next nodes).1).next = catchUp add firstSn next nodes
  | [], next => rfl
  | rp :: rest, next => by
    unfold catchUp
    by_cases hlt : next < firstSn
    · rw [if_neg (show ¬ firstSn ≤ next by omega)]
      cases hu : rp.u with
      | sample s =>
        have ih := drain_markLost_next add firstSn rest (s + 1)
        obtain ⟨rp', hm, hu', hset, hst⟩ := markLost_sample rest hlt hu
        rw [hm, Ccref.first_of_sample hu]
        split
        · exact drain_stop add next _ (.inl (by rwa [Ccref.first_of_sample hu']))
        rename_i hn
        obtain rfl : s = next := by simpa using hn
        dsimp only
        split
        · rename_i href
          obtain ⟨hrec, hfr, hno⟩ := href
          rcases hst with ⟨-, -, rfl⟩ | ⟨hnot, -⟩
          · exact drain_stop add s _ (.inr (.inr ⟨s, hu', hrec, hno⟩))
          · exact absurd ⟨hrec, by simpa using hfr⟩ hnot
        rename_i href
        rw [drain_pop_next add s _ (Ccref.first_of_sample hu') hset, Ccref.last_of_sample hu']
        · exact ih
        intro t ht hrec hno
        cases hu'.symm.trans ht
        rcases hst with ⟨-, hfr, rfl⟩ | ⟨-, hst⟩
        · exact href ⟨hrec, by simp [hfr], hno⟩
        · cases hst.symm.trans hrec
      | range x y =>
        have ih := drain_markLost_next add firstSn rest (y + 1)
        have hfirst : ∀ y', ({ rp with state := if rp.state ≠ .received then .lost else rp.state, u := .range x y' } :
            RwRef).first = x := fun _ => rfl
        have hset : ∀ y', ({ rp with state := if rp.state ≠ .received then .lost else rp.state, u := .range x y' } :
            RwRef).settled = !decide (rp.state = .received ∧ rp.fragments = true) := by
          by_cases hst : rp.state = .received <;> simp [Ccref.settled, hst]
        simp only [Ccref.first_of_range hu, markLost, if_pos hlt, hu]
        by_cases hn : x ≠ next
        · split <;> exact drain_stop add next _ (.inl hn)
        obtain rfl : x = next := by simpa using hn
        rw [if_neg hn]
        by_cases hfr : rp.state = .received ∧ rp.fragments = true
        · rw [if_pos hfr]
          have hstop : ∀ y', _ = false := fun y' => (hset y').trans (by simp [hfr])
          split <;> exact drain_stop add x _ (.inr (.inl (hstop _)))
        · have hgo : ∀ y', _ = true := fun y' => (hset y').trans (by simp [hfr])
          rw [if_neg hfr]
          by_cases hy : firstSn ≤ y
          · rw [if_pos hy, if_pos hy, drain_pop_next add x _ (hfirst _) (hgo _) (by rintro s ⟨⟩)]
            simp [Ccref.last]
          · rw [if_neg hy, if_neg hy, drain_pop_next add x _ (hfirst _) (hgo _) (by rintro s ⟨⟩)]
            exact ih
    · have hm : (markLost firstSn next (rp :: rest)).1 = rp :: rest := by rw [markLost, if_neg hlt]
      rw [if_pos (show firstSn ≤ next by omega), hm]

section
variable (add : Int → AddRes) (p : RemWriter)

/-- A HEARTBEAT that this proxy leaves as it is: one it ignores, or one with a `first_sn` that `rw_seqnr_next` has not
got past, nor gets past now. -/
def RemWriter.LeavesHeartbeat (hp : HeartbeatSMsg) (flags : HbFlags) : Prop :=
  p.ignoresHeartbeat hp flags = false → p.seqnrNext ≤ hp.firstSn ∧
    ∀ head ∈ p.changes.nodes.head?, head.first ≤ hp.firstSn → p.seqnrNext < hp.firstSn →
      catchUp add hp.firstSn head.first p.changes.nodes ≤ hp.firstSn

theorem heartbeatFirst_next_le (firstSn : Int) :
    (p.heartbeatFirst add firstSn).seqnrNext ≤ firstSn ↔ p.seqnrNext ≤ firstSn ∧
      ∀ head ∈ p.changes.nodes.head?, head.first ≤ firstSn → p.seqnrNext < firstSn →
        catchUp add firstSn head.first p.changes.nodes ≤ firstSn := by
  rw [heartbeatFirst, raise_eq]
  unfold heartbeatLost
  cases hn : p.changes.nodes with
  | nil =>
    simp only [head?_nil]
    constructor
    · exact fun h => ⟨by omega, by rintro x ⟨⟩⟩
    · rintro ⟨h, _⟩
      omega
  | cons head rest =>
    simp only [head?_cons, Option.mem_def, Option.some.injEq, forall_eq']
    split
    · simp only [sfrProcessSamples, drain_markLost_next]
      constructor
      · exact fun h => ⟨by omega, fun _ _ => by omega⟩
      · omega
    · rename_i hup
      constructor
      · exact fun h => ⟨by simp only at h; omega, fun h1 h2 => absurd ⟨h1, h2⟩ hup⟩
      · simp only
        omega

def Raised (hp hp' : HeartbeatSMsg) : Prop := ∃ f, hp.firstSn < f ∧ hp' = { hp with firstSn := f }

theorem sfrRelHeartbeat_message (hp : HeartbeatSMsg) (flags : HbFlags) :
    p.LeavesHeartbeat add hp flags ∧ (p.sfrRelHeartbeat add hp flags).2 = hp ∨
      ¬ p.LeavesHeartbeat add hp flags ∧ ¬ (flags.liveliness = true ∧ flags.final = true) ∧
        Raised hp (p.sfrRelHeartbeat add hp flags).2 := by
  have hig : p.alive.ignoresHeartbeat hp flags = p.ignoresHeartbeat hp flags := by simp [ignoresHeartbeat]
  cases h : p.ignoresHeartbeat hp flags with
  | true => exact .inl ⟨fun h' => absurd (h.symm.trans h') (by simp), by simp [sfrRelHeartbeat, hig, h]⟩
  | false =>
    have hflags : ¬ (flags.liveliness = true ∧ flags.final = true) := by
      rintro ⟨h1, h2⟩
      simp [ignoresHeartbeat, h1, h2] at h
    obtain ⟨hs, _⟩ := heartbeatFlags_same { p.alive with lastHb := hp.count } flags (!p.peerAlive)
    generalize hr : heartbeatFlags { p.alive with lastHb := hp.count } flags (!p.peerAlive) = r at hs
    obtain ⟨p', hp', hnext, hch⟩ : ∃ p' : RemWriter, p' = { r.1 with heartbeats := true } ∧
        p'.seqnrNext = p.seqnrNext ∧ p'.changes = p.changes := by
      refine ⟨_, rfl, ?_, ?_⟩
      · simp [hs.next]
      · simp [hs.changes]
    have hle := heartbeatFirst_next_le add p' hp.firstSn
    rw [hnext, hch] at hle
    have he : (p.sfrRelHeartbeat add hp flags).2 = if hp.firstSn < (heartbeatFirst add p' hp.firstSn).seqnrNext then
        { hp with firstSn := (heartbeatFirst add p' hp.firstSn).seqnrNext } else hp := by
      unfold sfrRelHeartbeat
      simp only [hig, h, hr, hp', Bool.false_eq_true, if_false]
    rw [he]
    split
    · rename_i hlt
      exact .inr ⟨fun hl => absurd (hle.2 (hl h)) (by omega), hflags, _, hlt, rfl⟩
    · exact .inl ⟨fun _ => hle.1 (by omega), rfl⟩

end

def awaiting (firstSn : Int) (lastHb : Nat) : RemWriter :=
  { sfrRelStart false 0 with seqnrNext := firstSn, lastHb }

theorem awaiting_heartbeat (hp : HeartbeatSMsg) (flags : HbFlags) (add : Int → AddRes)
    (hf : ¬ (flags.liveliness = true ∧ flags.final = true)) (hle : firstSn ≤ hp.firstSn) :
    ((awaiting firstSn (hp.count + 1)).sfrRelHeartbeat add hp flags).1.seqnrNext = hp.firstSn := by
  have hig : (awaiting firstSn (hp.count + 1)).ignoresHeartbeat hp flags = false := by
    simp only [ignoresHeartbeat, awaiting, Bool.or_eq_false_iff, Bool.and_eq_false_iff]
    cases h1 : flags.liveliness <;> cases h2 : flags.final <;> simp_all
  have hcov : Cover (uprightBy 0) firstSn (awaiting firstSn (hp.count + 1)).changes.nodes firstSn := rfl
  have hc := upright_closed
  rcases sfrRelHeartbeat_spec add hp flags hc hcov (fun _ _ => trivial) with ⟨h, _⟩ | ⟨_, q, hq, hsame, _⟩
  · rw [hig] at h
    cases h
  rcases hq.moved with ⟨_, hnext, _, _, hcv⟩ | ⟨⟨_, _, hn, _⟩, _⟩
  · rw [hsame.next, (heartbeatMissing_edited hc hcv hp.lastSn).next, hnext]
    show max firstSn hp.firstSn = hp.firstSn
    omega
  · cases hn

/-! ## What a GAP is left as -/

/-- A GAP that this proxy leaves as it is: one without a leading range, one that is all behind `rw_seqnr_next`, or one
that starts at `rw_seqnr_next` or above and has its leading range behind the list or before it. -/
def RemWriter.LeavesGap (p : RemWriter) (gp : GapSMsg) : Prop :=
  gp.gapStart < gp.base → p.seqnrNext < gp.base → p.seqnrNext ≤ gp.gapStart ∧
    ∀ head ∈ p.changes.nodes.head?, ∀ tail ∈ p.changes.nodes.getLast?, gp.gapStart ≤ tail.last → gp.base ≤ head.first

theorem gapOverlap_first : ∀ (nodes : List RwRef) {first : Int}, first ≤ last →
    first ≤ (gapOverlap last first nodes).2.2 ∧
      ∀ tail ∈ nodes.getLast?, first ≤ tail.last → first < (gapOverlap last first nodes).2.2
  | [], first, _ => ⟨Int.le_refl _, nofun⟩
  | rp :: rest, first, hle => by
    obtain ⟨parts, first', hstep, he⟩ := gapOverlap_cons hle rp rest
    rw [he]
    -- A node that reaches `first` moves it; one that ends below is passed by, and then the tail is further on.
    have hmove : first < first' ∨ rp.last < first ∧ first' = first := by
      cases hstep with
      | sample hu hs => exact .inl (by omega)
      | passed hlt => exact .inr ⟨hlt, rfl⟩
      | range hu hb => exact .inl (by omega)
    rcases hmove with hlt | ⟨hlt, rfl⟩
    · split
      · exact ⟨Int.le_of_lt hlt, fun _ _ _ => hlt⟩
      · have := (gapOverlap_first rest (show first' ≤ last by omega)).1
        dsimp only
        exact ⟨by omega, fun _ _ _ => by omega⟩
    rw [if_neg (by omega)]
    obtain ⟨h1, h2⟩ := gapOverlap_first rest hle
    refine ⟨h1, fun tail ht htail => ?_⟩
    cases rest with
    | nil =>
      obtain rfl : rp = tail := by simpa using ht
      omega
    | cons r rest => exact h2 tail (by simpa using ht) htail

def Overlaps (nodes : List RwRef) (first last : Int) : Prop :=
  ∃ head tail, nodes.head? = some head ∧ nodes.getLast? = some tail ∧ first ≤ tail.last ∧ head.first ≤ last

theorem sfrRelGapRange_first (hle : first ≤ last) (hnext : p.seqnrNext ≤ last) :
    Overlaps p.changes.nodes (max first p.seqnrNext) last ∧
        max first p.seqnrNext < (p.sfrRelGapRange first last).2 ∨
      ¬ Overlaps p.changes.nodes (max first p.seqnrNext) last ∧
        (p.sfrRelGapRange first last).2 = max first p.seqnrNext := by
  have hf : (if first < p.seqnrNext then p.seqnrNext else first) = max first p.seqnrNext := by split <;> omega
  rw [sfrRelGapRange, if_neg (by omega)]
  simp only [hf]
  cases hn : p.changes.nodes with
  | nil => exact .inr ⟨fun ⟨_, _, h, _⟩ => (nomatch h), rfl⟩
  | cons head rest =>
    obtain ⟨tail, htail⟩ : ∃ tail, (head :: rest).getLast? = some tail := ⟨_, getLast?_cons⟩
    have hover : Overlaps (head :: rest) (max first p.seqnrNext) last ↔
        max first p.seqnrNext ≤ tail.last ∧ head.first ≤ last := by
      constructor
      · rintro ⟨h, t, h1, h2, h3⟩
        rw [htail] at h2
        cases h1
        cases h2
        exact h3
      · exact fun h => ⟨head, tail, rfl, htail, h⟩
    rw [hover, htail]
    dsimp only
    split
    · exact .inr ⟨by omega, rfl⟩
    split
    · exact .inr ⟨by omega, rfl⟩
    · refine .inl ⟨by omega, ?_⟩
      exact (gapOverlap_first (head :: rest) (by omega)).2 tail htail (by omega)

def Advanced (gp gp' : GapSMsg) : Prop := ∃ g, gp.gapStart < g ∧ gp' = { gp with gapStart := g }

theorem sfrRelGap_message (add : Int → AddRes) (p : RemWriter) (gp : GapSMsg) :
    p.LeavesGap gp ∧ (p.sfrRelGap add gp).2 = gp ∨
      ¬ p.LeavesGap gp ∧ gp.gapStart < gp.base ∧ Advanced gp (p.sfrRelGap add gp).2 := by
  by_cases hlt : gp.gapStart < gp.base
  · have hm : (p.sfrRelGap add gp).2 =
        { gp with gapStart := (p.alive.sfrRelGapRange gp.gapStart (gp.base - 1)).2 } := by
      simp only [sfrRelGap, if_pos hlt]
    have key : p.LeavesGap gp ∧ (p.alive.sfrRelGapRange gp.gapStart (gp.base - 1)).2 = gp.gapStart ∨
        ¬ p.LeavesGap gp ∧ gp.gapStart < (p.alive.sfrRelGapRange gp.gapStart (gp.base - 1)).2 := by
      by_cases hnext : p.seqnrNext < gp.base
      · have hfirst := sfrRelGapRange_first (p := p.alive) (show gp.gapStart ≤ gp.base - 1 by omega)
          (by rw [alive_seqnrNext]; omega)
        rw [alive_seqnrNext, alive_changes] at hfirst
        rcases hfirst with ⟨⟨head, tail, hh, ht, h1, h2⟩, h⟩ | ⟨hno, h⟩
        · refine .inr ⟨fun hl => ?_, by omega⟩
          have := (hl hlt hnext).2 head hh tail ht (by omega)
          omega
        by_cases hg : p.seqnrNext ≤ gp.gapStart
        · rw [show max gp.gapStart p.seqnrNext = gp.gapStart by omega] at hno h
          refine .inl ⟨fun _ _ => ⟨hg, fun head hh tail ht htail => ?_⟩, h⟩
          by_contra hlt'
          exact hno ⟨head, tail, hh, ht, htail, by omega⟩
        · exact .inr ⟨fun hl => hg (hl hlt hnext).1, by omega⟩
      · refine .inl ⟨fun _ h => absurd h hnext, ?_⟩
        rw [sfrRelGapRange, if_pos (by rw [alive_seqnrNext]; omega)]
    rw [hm]
    rcases key with ⟨hl, he⟩ | ⟨hl, hg⟩
    · exact .inl ⟨hl, by rw [he]⟩
    · exact .inr ⟨hl, hlt, _, hg, rfl⟩
  · exact .inl ⟨fun h => absurd h hlt, by simp only [sfrRelGap, if_neg hlt]⟩

def waitsFor (g n : Int) (state : ChangeState) : RemWriter :=
  { sfrRelStart false 0 with
    seqnrNext := g
    changes := ⟨[.gap () g g state, .gap () (g + 1) n .received], 2⟩
    peerAlive := true }

theorem waitsFor_range (state : ChangeState) (hx : g < x) (hxy : x ≤ y) (hy : y ≤ n) :
    ((waitsFor g n state).sfrRelGapRange x y).1 = waitsFor g n state := by
  have h1 : ¬ y < g := by omega
  have h2 : ¬ x < g := by omega
  have h3 : ¬ n < x := by omega
  have h4 : min n y = y := by omega
  simp [sfrRelGapRange, waitsFor, gapOverlap, gapNodes, Ccref.gap, Ccref.first, Ccref.last, h1, h2, h3, h4, hx]

theorem waitsFor_ranges (state : ChangeState) : ∀ {l : List (Int × Int)}, (∀ r ∈ l, g < r.1 ∧ r.1 ≤ r.2 ∧ r.2 ≤ n) →
    l.foldl (fun p r => (p.sfrRelGapRange r.1 r.2).1) (waitsFor g n state) = waitsFor g n state
  | [], _ => rfl
  | r :: l, h => by
    obtain ⟨h1, h2, h3⟩ := h r (by simp)
    rw [foldl_cons, waitsFor_range state h1 h2 h3]
    exact waitsFor_ranges state fun r' hr' => h r' (mem_cons_of_mem r hr')

theorem waitsFor_first (hy : g ≤ y) (hn : y ≤ n) :
    ((waitsFor g n .missing).sfrRelGapRange g y).1 = waitsFor g n .received := by
  have h1 : ¬ y < g := by omega
  have h2 : ¬ n < g := by omega
  have h3 : min g y = g := by omega
  have h4 : min n y = y := by omega
  by_cases h6 : y < g + 1
  · simp [sfrRelGapRange, waitsFor, gapOverlap, gapNodes, sfrRelGapSet, Ccref.gap, Ccref.first, Ccref.last, h1, h2,
      h3, h6]
  · have h7 : ¬ n < g + 1 := by omega
    simp [sfrRelGapRange, waitsFor, gapOverlap, gapNodes, sfrRelGapSet, Ccref.gap, Ccref.first, Ccref.last, h1, h2, h3,
      h4, h6, h7]

theorem bitRuns_bounds : ∀ r ∈ bitRuns none gp.base gp.bitmap,
    gp.base ≤ r.1 ∧ r.1 ≤ r.2 ∧ r.2 ≤ gp.base + gp.bitmap.length := by
  intro r hr
  obtain ⟨h1, h2, h3⟩ := bitRuns_mem none (by simp) r hr
  refine ⟨h1, h2, ?_⟩
  rcases h3 r.2 h2 (Int.le_refl _) with h | ⟨h, hb⟩
  · omega
  · have := (List.getElem?_eq_some_iff.1 hb).1
    omega

theorem waitsFor_gap (add : Int → AddRes) (gp : GapSMsg) (hg : g ≤ gp.gapStart) (hb : g < gp.base) :
    ((waitsFor g (gp.base + gp.bitmap.length) .missing).sfrRelGap add gp).1.seqnrNext =
      if gp.gapStart = g then gp.base + gp.bitmap.length + 1 else g := by
  have hruns : ∀ state, (bitRuns none gp.base gp.bitmap).foldl (fun p r => (p.sfrRelGapRange r.1 r.2).1)
      (waitsFor g (gp.base + gp.bitmap.length) state) = waitsFor g (gp.base + gp.bitmap.length) state := by
    refine fun state => waitsFor_ranges state fun r hr => ?_
    obtain ⟨h1, h2⟩ := bitRuns_bounds r hr
    exact ⟨by omega, h2⟩
  have hrange : (if gp.gapStart < gp.base then
      (waitsFor g (gp.base + gp.bitmap.length) .missing).sfrRelGapRange gp.gapStart (gp.base - 1)
      else (waitsFor g (gp.base + gp.bitmap.length) .missing, gp.gapStart)).1 =
      waitsFor g (gp.base + gp.bitmap.length) (if gp.gapStart = g then .received else .missing) := by
    by_cases he : gp.gapStart = g
    · rw [if_pos (by omega), if_pos he, he]
      exact waitsFor_first (by omega) (by omega)
    · split
      · exact waitsFor_range _ (by omega) (by omega) (by omega)
      · rfl
  have halive : (waitsFor g (gp.base + gp.bitmap.length) .missing).alive =
      waitsFor g (gp.base + gp.bitmap.length) .missing := rfl
  unfold sfrRelGap
  simp only [halive, hrange, hruns]
  by_cases he : gp.gapStart = g
  · simp [he, waitsFor, Ccref.gap, sfrProcessSamples, drain, Ccref.settled, Ccref.first, Drain.cons]
  · simp [he, waitsFor, Ccref.gap]

/-! ## Independence -/

def LeavesHeartbeat (hp : HeartbeatSMsg) (flags : HbFlags) (rwp : ChainedWriter) : Prop :=
  rwp.stateful = true → rwp.reliable = true → rwp.rw.LeavesHeartbeat rwp.add hp flags

theorem rxHeartbeat_message (flags : HbFlags) (rwp : ChainedWriter) (hp : HeartbeatSMsg) :
    LeavesHeartbeat hp flags rwp ∧ (rxHeartbeat flags rwp hp).2 = hp ∨
      ¬ LeavesHeartbeat hp flags rwp ∧ ¬ (flags.liveliness = true ∧ flags.final = true) ∧
        Raised hp (rxHeartbeat flags rwp hp).2 := by
  unfold rxHeartbeat
  split
  · rename_i hr
    obtain ⟨hs, hr⟩ := Bool.and_eq_true_iff.1 hr
    rcases sfrRelHeartbeat_message rwp.add rwp.rw hp flags with ⟨hl, he⟩ | ⟨hl, hrest⟩
    · exact .inl ⟨fun _ _ => hl, he⟩
    · exact .inr ⟨fun h => hl (h hs hr), hrest⟩
  · rename_i hr
    exact .inl ⟨fun hs hr' => absurd (by rw [hs, hr']; rfl) hr, rfl⟩

theorem rxHeartbeat_independent_iff (hp : HeartbeatSMsg) (flags : HbFlags) (l : List ChainedWriter) :
    (∀ q, Independent (rxHeartbeat flags) (l ++ [q]) hp) ↔ ∀ rwp ∈ l, LeavesHeartbeat hp flags rwp := by
  rw [Relay.independent_iff (r := fun hp hp' => ¬ (flags.liveliness = true ∧ flags.final = true) ∧ Raised hp hp')]
  · refine forall₂_congr fun rwp _ => ?_
    rcases rxHeartbeat_message flags rwp hp with ⟨hl, he⟩ | ⟨hl, _, f, hf, he⟩
    · exact ⟨fun _ => hl, fun _ => he⟩
    refine ⟨fun h => ?_, fun h => absurd h hl⟩
    rw [h] at he
    have := congrArg HeartbeatSMsg.firstSn he
    simp only at this
    omega
  · rintro m1 m2 m3 ⟨hf, f, hlt, rfl⟩ ⟨_, f', hlt', rfl⟩
    exact ⟨hf, f', by simp only at hlt'; omega, rfl⟩
  · intro rwp hp
    rcases rxHeartbeat_message flags rwp hp with ⟨_, he⟩ | ⟨_, h⟩
    · exact .inl he
    · exact .inr h
  rintro hp' ⟨hf, f, hlt, rfl⟩
  refine ⟨⟨⟨0, 4⟩, true, true, fun _ => .ok, awaiting hp.firstSn (hp.count + 1)⟩, fun heq => ?_⟩
  have h := congrArg (fun rwp => rwp.rw.seqnrNext) heq
  simp only [rxHeartbeat, Bool.and_self, if_true] at h
  rw [awaiting_heartbeat { hp with firstSn := f } flags _ hf (by simp only; omega),
    awaiting_heartbeat hp flags _ hf (Int.le_refl _)] at h
  simp only at h
  omega

theorem rxGap_independent_iff (gp : GapSMsg) (l : List ChainedWriter) :
    (∀ q, Independent rxGap (l ++ [q]) gp) ↔ ∀ rwp ∈ l, rwp.rw.LeavesGap gp := by
  rw [Relay.independent_iff (r := fun gp gp' => gp.gapStart < gp.base ∧ Advanced gp gp')]
  · refine forall₂_congr fun rwp _ => ?_
    rcases sfrRelGap_message rwp.add rwp.rw gp with ⟨hl, he⟩ | ⟨hl, _, g, hg, he⟩
    · exact ⟨fun _ => hl, fun _ => he⟩
    refine ⟨fun h => ?_, fun h => absurd h hl⟩
    have := congrArg GapSMsg.gapStart (h.symm.trans he)
    simp only at this
    omega
  · rintro m1 m2 m3 ⟨hb, g, hlt, rfl⟩ ⟨_, g', hlt', rfl⟩
    exact ⟨hb, g', by simp only at hlt'; omega, rfl⟩
  · intro rwp gp
    rcases sfrRelGap_message rwp.add rwp.rw gp with ⟨_, he⟩ | ⟨_, h⟩
    · exact .inl he
    · exact .inr h
  rintro gp' ⟨hb, g, hlt, rfl⟩
  refine ⟨⟨⟨0, 4⟩, true, true, fun _ => .ok, waitsFor gp.gapStart (gp.base + gp.bitmap.length) .missing⟩,
    fun heq => ?_⟩
  have h := congrArg (fun rwp => rwp.rw.seqnrNext) heq
  simp only [rxGap] at h
  have h1 := waitsFor_gap (fun _ => .ok) gp (Int.le_refl _) hb
  have h2 := waitsFor_gap (fun _ => .ok) { gp with gapStart := g } (g := gp.gapStart) (by simp only; omega) hb
  simp only at h2
  omega

theorem submsgRx_independent_iff {handle : ChainedWriter → μ → ChainedWriter × μ} {rxp : Receiver}
    (h : rxp.Accepts writerId) (hr : readerId.unknown = true) (l : List ChainedWriter) (m : μ) :
    (∀ q, submsgRx true handle { rxp with proxies := fun _ => l ++ [q] } writerId readerId m =
        .ok ((l ++ [q]).map fun rwp => (handle rwp m).1)) ↔ ∀ q, Independent handle (l ++ [q]) m := by
  refine forall_congr' fun q => ?_
  have h' : Receiver.Accepts { rxp with proxies := fun _ => l ++ [q] } writerId := ⟨h.writer, h.destination⟩
  rw [submsgRx_unknown h' (by simp) hr]
  simp [Independent]

/-- **Readers are independent just when no proxy touches the message**: whatever proxy follows the proxies `l`, all end
as each would alone, if and only if every one of `l` leaves the HEARTBEAT or GAP as it is. -/
theorem readers_independent_iff (rxp : Receiver) (writerId readerId : EntityId) (h : rxp.Accepts writerId)
    (hr : readerId.unknown = true) (l : List ChainedWriter) :
    (∀ hp flags, hp.Valid →
      ((∀ q, submsgRxHeartbeat { rxp with proxies := fun _ => l ++ [q] } writerId readerId flags hp =
          .ok ((l ++ [q]).map fun rwp => (rxHeartbeat flags rwp hp).1)) ↔ ∀ rwp ∈ l, LeavesHeartbeat hp flags rwp)) ∧
    ∀ gp, gp.Valid → ((∀ q, submsgRxGap { rxp with proxies := fun _ => l ++ [q] } writerId readerId gp =
          .ok ((l ++ [q]).map fun rwp => (rxGap rwp gp).1)) ↔ ∀ rwp ∈ l, rwp.rw.LeavesGap gp) := by
  constructor
  · intro hp flags hv
    simp only [submsgRxHeartbeat, hv, decide_true]
    rw [submsgRx_independent_iff h hr, rxHeartbeat_independent_iff]
  · intro gp hv
    simp only [submsgRxGap, hv, decide_true]
    rw [submsgRx_independent_iff h hr, rxGap_independent_iff]

def openReceiver (proxies : List ChainedWriter) : Receiver := ⟨0, none, fun _ => proxies⟩

def aheadReader : ChainedWriter :=
  ⟨⟨1, 4⟩, true, true, fun _ => .ok, (exec RemWriter.step (fun _ e => e.Valid) (sfrRelStart false 0)
    [.data ⟨1, false, none, true⟩ fun _ => .ok, .data ⟨2, false, none, true⟩ fun _ => .ok,
      .data ⟨3, false, none, true⟩ fun _ => .ok]).get (by decide)⟩

def lateReader : ChainedWriter := ⟨⟨2, 4⟩, true, true, fun _ => .ok, sfrRelStart false 0⟩

/-- A HEARTBEAT from 4 on does the two no harm. -/
theorem readers_independent_in_step :
    submsgRxHeartbeat (openReceiver [aheadReader, lateReader]) ⟨7, 3⟩ ⟨0, 0⟩ ⟨true, false⟩ ⟨4, 6, 1⟩ =
      .ok ([aheadReader, lateReader].map fun rwp => (rxHeartbeat ⟨true, false⟩ rwp ⟨4, 6, 1⟩).1) :=
  ((readers_independent_iff (openReceiver []) ⟨7, 3⟩ ⟨0, 0⟩ ⟨by decide, by decide⟩ (by decide) [aheadReader]).1
    ⟨4, 6, 1⟩ ⟨true, false⟩ (by decide)).2 (forall_mem_singleton.2 fun _ _ _ => ⟨by decide, nofun⟩) lateReader

/-- **They are not.**  The first reader is at 4.  A HEARTBEAT for 1 to 3 reaches the second as one from 4 on, and it
gives up three samples.  A GAP over 2 to 5 reaches it as one over 4 and 5. -/
theorem readers_dependent :
    ((submsgRxHeartbeat (openReceiver [aheadReader, lateReader]) ⟨7, 3⟩ ⟨0, 0⟩ ⟨false, false⟩ ⟨1, 3, 1⟩).toOption.map
        (·.map fun rwp => (rwp.rw.seqnrNext, rwp.rw.acknacks.getLast?))) =
          some [(4, some ⟨4, []⟩), (4, some ⟨4, []⟩)] ∧
    ((rxHeartbeat ⟨false, false⟩ lateReader ⟨1, 3, 1⟩).1.rw.seqnrNext,
        (rxHeartbeat ⟨false, false⟩ lateReader ⟨1, 3, 1⟩).1.rw.acknacks.getLast?) =
          (1, some ⟨1, [true, true, true]⟩) ∧
    ((submsgRxGap (openReceiver [aheadReader, lateReader]) ⟨7, 3⟩ ⟨0, 0⟩ ⟨2, 6, []⟩).toOption.map
        (·.map fun rwp => rwp.rw.changes.nodes)) = some [[], [.gap () 4 5 .received]] ∧
    (rxGap lateReader ⟨2, 6, []⟩).1.rw.changes.nodes = [.gap () 2 5 .received] := by
  decide

end Qeo.Rtps
