import QeoCore.SfrrLoss
import QeoCore.SfrrRange
/-!
# SfrrAck — what a reader acknowledges

Bit `n` of an ACKNACK stands for the number `rw_seqnr_next + n`, but `sfr_rel_do_ack_nl` counts the numbers of the
change list.  The two agree when the list starts at `rw_seqnr_next` and no node before a bit is passed over.
-/
namespace Qeo.Rtps

open List Trace RemWriter

variable {p p' q : RemWriter} {add : Int → AddRes} {a b : Int} {es : List ReaderEvent} {e : ReaderEvent} {m : AckMode}

/-! ## What an ACKNACK says -/

def AckNack.Acknowledges (k : AckNack) (s : Int) : Prop :=
  s < k.base ∨ k.base ≤ s ∧ k.bitmap[(s - k.base).toNat]? = some false

def AckNack.Requests (k : AckNack) (s : Int) : Prop :=
  k.base ≤ s ∧ k.bitmap[(s - k.base).toNat]? = some true

def RemWriter.Holds (p : RemWriter) (s : Int) : Prop :=
  ∃ rp ∈ p.changes.nodes, rp.u = .sample s ∧ rp.state = .received ∧ rp.fragments = false

def RemWriter.Misses (p : RemWriter) (s : Int) : Prop :=
  ∃ rp ∈ p.changes.nodes, rp.first ≤ s ∧ s ≤ rp.last ∧ (rp.state = .missing ∨ rp.fragments = true)

/-- **A sound ACKNACK.**  What it acknowledges has been delivered, is held, is irrelevant or lost; what it asks for is
missing. -/
structure Sound (es : List ReaderEvent) (p : RemWriter) (k : AckNack) : Prop where
  acknowledges : ∀ s, 1 ≤ s → k.Acknowledges s → p.Delivered s ∨ p.Holds s ∨ Told es s ∨ GivenUp es s
  requests : ∀ s, k.Requests s → p.Misses s

/-! ## The walk over the list -/

/-- The walk sets each bit at a node that starts at the number `n` of that bit.  A reader that acknowledges only what
its cache took ends it at a sample that is there and passes over a received range. -/
def inStep (cacheAcks : Bool) : Nat → Int → List RwRef → Bool
  | _, _, [] => true
  | room, n, rp :: rest =>
    if cacheAcks && rp.state == .received && !rp.fragments then rp.relevant || inStep cacheAcks room n rest
    else decide (rp.first = n) && (decide (room ≤ (rp.last + 1 - n).toNat) ||
      inStep cacheAcks (room - (rp.last + 1 - n).toNat) (rp.last + 1) rest)

open Ccref

theorem ackRange_eq (hb : m.blocked = false) (hst : ¬ (st = .received ∧ m.cacheAcks))
    : ∀ (room : Nat) (x : Int),
    ackRange m st y room x = List.replicate (min room (y + 1 - x).toNat) (decide (st = .missing))
  | 0, x => by simp [ackRange]
  | room + 1, x => by
    unfold ackRange
    by_cases hx : y < x
    · rw [if_pos hx, show (y + 1 - x).toNat = 0 by omega]
      rfl
    · rw [if_neg hx, if_neg hst, if_neg (by simp [hb]), ackRange_eq hb hst room (x + 1), ← replicate_succ]
      congr 1
      omega

theorem ackRange_none (hst : st = .received ∧ m.cacheAcks) (room : Nat) (x : Int) : ackRange m st y room x = [] := by
  cases room with
  | zero => rfl
  | succ room =>
    unfold ackRange
    split <;> rfl

theorem ackBits_spec (hb : m.blocked = false) : ∀ {nodes : List RwRef} {room k : Nat} {n : Int} {bit : Bool},
    (∀ rp ∈ nodes, rp.Ok (uprightBy 0)) → inStep m.cacheAcks room n nodes = true → 1 ≤ room →
    (ackBits m room nodes)[k]? = some bit →
    ∃ rp ∈ nodes, rp.first ≤ n + k ∧ n + k ≤ rp.last ∧ (bit = true ↔ rp.state = .missing ∨ rp.fragments = true)
  | [], room, k, n, bit, _, _, _, h => by simp [ackBits] at h
  | rp :: rest, room, k, n, bit, hok, hin, hroom, h => by
    obtain ⟨hok0, hok'⟩ := forall_mem_cons.1 hok
    have later : ∀ {n' : Int} {room' k' : Nat}, inStep m.cacheAcks room' n' rest = true → 1 ≤ room' →
        (ackBits m room' rest)[k']? = some bit → n' + k' = n + k →
        ∃ r ∈ rp :: rest, r.first ≤ n + k ∧ n + k ≤ r.last ∧
          (bit = true ↔ r.state = .missing ∨ r.fragments = true) := by
      intro n' room' k' hin' hr hk heq
      obtain ⟨r, hm, hbnd⟩ := ackBits_spec hb hok' hin' hr hk
      rw [heq] at hbnd
      exact ⟨r, mem_cons_of_mem rp hm, hbnd⟩
    unfold ackBits at h
    unfold inStep at hin
    cases hu : rp.u with
    | sample s =>
      have hf := first_of_sample hu
      have hl := last_of_sample hu
      simp only [hu, hb] at h
      split at h
      · simp at h
      rename_i hno
      rw [if_neg (by simpa [and_comm, and_left_comm, and_assoc] using hno)] at hin
      simp only [Bool.and_eq_true, Bool.or_eq_true, decide_eq_true_eq] at hin
      simp only [Bool.false_eq_true, if_false] at h
      cases k with
      | zero =>
        have hbit : (decide (rp.state = .missing) || rp.fragments) = bit := by split at h <;> simpa using h
        exact ⟨rp, by simp, by omega, by omega, by rw [← hbit]; simp⟩
      | succ k =>
        split at h
        · simp at h
        rw [show (rp.last + 1 - n).toNat = 1 by omega] at hin
        exact later (hin.2.resolve_left (by omega)) (by omega) h (by omega)
    | range x y =>
      have hf := first_of_range hu
      have hl := last_of_range hu
      have hfr : rp.fragments = false := (ok_range upright_closed hok0 hu).2
      by_cases hst : rp.state = .received ∧ m.cacheAcks = true
      · -- Passed over: the next bit is still that of `n`.
        simp only [hu, ackRange_none hst, length_nil, if_neg (show ¬ room ≤ 0 by omega), nil_append, Nat.sub_zero] at h
        rw [if_pos (by simp [hst, hfr]), relevant_of_range hu, Bool.false_or] at hin
        exact later hin hroom h rfl
      rw [if_neg (by simpa [hfr, and_comm] using hst)] at hin
      simp only [Bool.and_eq_true, Bool.or_eq_true, decide_eq_true_eq] at hin
      simp only [hu, ackRange_eq hb hst room x, length_replicate] at h
      have here : k < min room (y + 1 - x).toNat → bit = decide (rp.state = .missing) →
          ∃ r ∈ rp :: rest, r.first ≤ n + k ∧ n + k ≤ r.last ∧
            (bit = true ↔ r.state = .missing ∨ r.fragments = true) := by
        intro hk hbit
        exact ⟨rp, by simp, by omega, by omega, by rw [hbit, hfr]; simp⟩
      split at h
      · rw [getElem?_replicate] at h
        split at h
        · exact here ‹_› (by simpa [eq_comm] using h)
        · cases h
      rw [getElem?_append] at h
      split at h
      · rename_i hk
        rw [length_replicate] at hk
        rw [getElem?_replicate, if_pos hk] at h
        exact here hk (by simpa [eq_comm] using h)
      · rename_i hlen hk
        rw [length_replicate] at h hk
        have hxy := hok0.2
        simp only [hu] at hxy
        rw [show min room (y + 1 - x).toNat = (rp.last + 1 - n).toNat by omega] at h hk
        exact later (hin.2.resolve_left (by omega)) (by omega) h (by omega)

theorem ackRange_blocked (hb : m.blocked = true) (room : Nat) (hx : m.next < x) : ackRange m st y room x = [] := by
  cases room with
  | zero => rfl
  | succ room =>
    unfold ackRange
    split
    · rfl
    · split
      · rfl
      · rw [if_pos ⟨hb, by omega⟩]

theorem ackBits_blocked (hb : m.blocked = true) : ∀ {nodes : List RwRef} {a : Int} (room : Nat),
    Cover (uprightBy 0) a nodes b → m.next < a → ackBits m room nodes = []
  | [], _, _, _, _ => rfl
  | rp :: rest, a, room, ⟨ha, hok, hrest⟩, hlt => by
    unfold ackBits
    cases hu : rp.u with
    | sample s => simp [hb]
    | range x y =>
      have hf := first_of_range hu
      rw [last_of_range hu] at hrest
      have hxy := hok.2
      simp only [hu] at hxy
      simp only [ackRange_blocked hb room (show m.next < x by omega)]
      rw [ackBits_blocked hb _ hrest (by omega)]
      simp

theorem ackBits_blocked_spec (hb : m.blocked = true)
    (hcov : Cover (uprightBy 0) m.next nodes b) (h : (ackBits m room nodes)[n]? = some bit) :
    n = 0 ∧ ∃ rp ∈ nodes, rp.first ≤ m.next ∧ m.next ≤ rp.last ∧
      (bit = true ↔ rp.state = .missing ∨ rp.fragments = true) := by
  cases nodes with
  | nil => simp [ackBits] at h
  | cons rp rest =>
    obtain ⟨ha, hok, hrest⟩ := hcov
    unfold ackBits at h
    cases hu : rp.u with
    | sample s => simp [hu, hb] at h
    | range x y =>
      have hf := first_of_range hu
      have hl := last_of_range hu
      rw [hl] at hrest
      have hxy := hok.2
      simp only [hu] at hxy
      have hfr : rp.fragments = false := (ok_range upright_closed hok hu).2
      simp only [hu, ackBits_blocked hb _ hrest (show m.next < y + 1 by omega), append_nil, ite_self] at h
      cases room with
      | zero => simp [ackRange] at h
      | succ room =>
        unfold ackRange at h
        rw [if_neg (by omega)] at h
        split at h
        · simp at h
        rw [if_neg (fun hne => hne.2 (by omega)), ackRange_blocked hb room (show m.next < x + 1 by omega)] at h
        cases n with
        | zero =>
          have hbit : decide (rp.state = .missing) = bit := by simpa using h
          exact ⟨rfl, rp, by simp, by omega, by omega, by rw [← hbit, hfr]; simp⟩
        | succ n => simp at h

/-! ## When bits and numbers agree -/

/-- The bits of an ACKNACK made from this list are in their places: the reader is blocked, or the walk over the list is
in step with the numbers from `rw_seqnr_next` on. -/
def RemWriter.AckReady (p : RemWriter) : Prop :=
  p.blocked = true ∨ inStep p.cacheAcks (8 * 32) p.seqnrNext p.changes.nodes = true

theorem ackNack_place (hr : RangeInv p) (h : p.AckReady) {n : Nat} (hn : p.ackNack.bitmap[n]? = some bit) :
    ∃ rp ∈ p.changes.nodes, rp.first ≤ p.seqnrNext + n ∧ p.seqnrNext + n ≤ rp.last ∧
      (bit = true ↔ rp.state = .missing ∨ rp.fragments = true) := by
  obtain ⟨a, b, ha, hcov⟩ := hr.cover
  by_cases hb : p.blocked = true
  · by_cases heq : a = p.seqnrNext
    · obtain ⟨rfl, rp, hm, hbnd⟩ := ackBits_blocked_spec (m := p.ackMode) hb (by rw [heq] at hcov; exact hcov) hn
      exact ⟨rp, hm, by simpa [ackMode] using hbnd⟩
    · have := ackBits_blocked (m := p.ackMode) hb (8 * 32) hcov (by show p.seqnrNext < a; omega)
      rw [ackNack, this] at hn
      simp at hn
  have hb' : p.ackMode.blocked = false := by simpa [ackMode] using hb
  exact ackBits_spec hb' hcov.all (h.resolve_left hb) (by omega) hn

theorem ackNack_bit (hr : RangeInv p) (h : p.AckReady) (hs : p.ackNack.base ≤ s)
    (hbit : p.ackNack.bitmap[(s - p.ackNack.base).toNat]? = some bit) :
    ∃ rp ∈ p.changes.nodes, rp.first ≤ s ∧ s ≤ rp.last ∧ (bit = true ↔ rp.state = .missing ∨ rp.fragments = true) := by
  have hbase : p.ackNack.base = p.seqnrNext := rfl
  have hplace := ackNack_place hr h hbit
  rwa [show p.seqnrNext + ((s - p.ackNack.base).toNat : Int) = s by omega] at hplace

theorem ackNack_sound (hl : LossInv es p) (hr : RangeInv p) (h : p.AckReady) : Sound es p p.ackNack := by
  obtain ⟨⟨a, b, hcov⟩, hpast⟩ := hl
  constructor
  · rintro s h1 (hs | ⟨hs, hbit⟩)
    · rcases hpast s h1 hs with h | h
      · exact .inl h
      · exact .inr (.inr h)
    obtain ⟨rp, hm, hf, hlast, hiff⟩ := ackNack_bit hr h hs hbit
    have hst : rp.state ≠ .missing ∧ rp.fragments ≠ true := by
      constructor
      · exact fun h' => absurd (hiff.2 (.inl h')) (by simp)
      · exact fun h' => absurd (hiff.2 (.inr h')) (by simp)
    obtain ⟨_, hstates, hok⟩ := hcov.all rp hm
    refine .inr ?_
    cases hu : rp.u with
    | sample t =>
      rw [first_of_sample hu] at hf
      rw [last_of_sample hu] at hlast
      obtain rfl : s = t := by omega
      rcases hstates with h' | h' | h'
      · exact absurd h' hst.1
      · exact .inl ⟨rp, hm, hu, h', by simpa using hst.2⟩
      · rw [hu] at hok
        exact .inr (hok h')
    | range x y =>
      rw [first_of_range hu] at hf
      rw [last_of_range hu] at hlast
      rw [hu] at hok
      rcases hstates with h' | h' | h'
      · exact absurd h' hst.1
      · exact .inr (.inl (hok.1 h' s hf hlast))
      · exact .inr (.inr ((hok.2 h').le hlast))
  · rintro s ⟨hs, hbit⟩
    obtain ⟨rp, hm, hf, hlast, hiff⟩ := ackNack_bit hr h hs hbit
    exact ⟨rp, hm, hf, hlast, hiff.1 rfl⟩

/-! ## The ACKNACK of a HEARTBEAT -/

theorem heartbeatFirst_rest (add : Int → AddRes) (p : RemWriter) (firstSn : Int) :
    (p.heartbeatFirst add firstSn).heartbeatRespDelay = p.heartbeatRespDelay ∧
      (p.heartbeatFirst add firstSn).acknacks = p.acknacks := by
  rw [heartbeatFirst, raise_eq]
  unfold heartbeatLost
  split
  · exact ⟨rfl, rfl⟩
  · split <;> exact ⟨rfl, rfl⟩

theorem heartbeatMissing_delay (p : RemWriter) (firstSn lastSn : Int) :
    (p.heartbeatMissing firstSn lastSn).heartbeatRespDelay = p.heartbeatRespDelay := by
  unfold heartbeatMissing
  split
  · rfl
  · split <;> rfl

theorem heartbeatFlags_silent (flags : HbFlags) (hd : p.heartbeatRespDelay ≠ 0) :
    (p.heartbeatFlags flags false).2 = false ∧
      (p.heartbeatFlags flags false).1.heartbeatRespDelay = p.heartbeatRespDelay := by
  unfold heartbeatFlags
  split
  · rw [if_pos (by simpa using hd)]
    exact ⟨rfl, rfl⟩
  · split <;> exact ⟨rfl, rfl⟩

theorem heartbeatAck_silent (hd : p.heartbeatRespDelay ≠ 0) : (p.heartbeatAck false).acknacks = p.acknacks := by
  unfold heartbeatAck
  dsimp only
  repeat' split
  all_goals first | rfl | contradiction

theorem sfrRelHeartbeat_silent (add : Int → AddRes) (hp : HeartbeatSMsg) (flags : HbFlags)
    (hd : p.heartbeatRespDelay ≠ 0) (ha : p.peerAlive = true) :
    (p.sfrRelHeartbeat add hp flags).1.acknacks = p.acknacks := by
  have halive : p.alive = p := by rw [alive, if_pos ha]
  have hwakeup : (!p.peerAlive) = false := by simp [ha]
  unfold sfrRelHeartbeat
  simp only [halive, hwakeup]
  split
  · rfl
  obtain ⟨hsend, hdelay⟩ := heartbeatFlags_silent (p := { p with lastHb := hp.count }) flags hd
  obtain ⟨_, hacks, _⟩ := heartbeatFlags_same { p with lastHb := hp.count } flags false
  generalize heartbeatFlags { p with lastHb := hp.count } flags false = r at hsend hdelay hacks
  obtain ⟨hdf, haf⟩ := heartbeatFirst_rest add { r.1 with heartbeats := true } hp.firstSn
  rw [hsend, heartbeatAck_silent]
  · rw [(heartbeatMissing_rest _ _ _).2, haf]
    exact hacks
  · rw [heartbeatMissing_delay, hdf, hdelay]
    exact hd

/-! ## Every ACKNACK of a run -/

/-- The steps that keep ACKNACKs sound: one that was put off is made from a list that is ready for it, and so is one
that answers a HEARTBEAT at once, from the list with what this HEARTBEAT makes lost and missing. -/
def Answers (p : RemWriter) : ReaderEvent → Prop
  | .timeout => p.hbrspTimer = some .hbrsp → p.AckReady
  | .heartbeat hp flags add => p.ignoresHeartbeat hp flags = false →
    (p.heartbeatRespDelay = 0 ∨ p.peerAlive = false) → (p.sfrRelHeartbeat add hp flags).1.AckReady
  | .data _ _ | .gap _ _ | .unblock _ => True

def KeepsAcks (p : RemWriter) (e : ReaderEvent) : Prop := KeepsRange p e ∧ KeepsCount p e ∧ Answers p e

instance (p : RemWriter) : Decidable p.AckReady := by unfold RemWriter.AckReady; infer_instance

instance (p : RemWriter) : (e : ReaderEvent) → Decidable (Answers p e)
  | .timeout => inferInstanceAs (Decidable (p.hbrspTimer = some .hbrsp → p.AckReady))
  | .heartbeat hp flags add => inferInstanceAs (Decidable (p.ignoresHeartbeat hp flags = false →
      (p.heartbeatRespDelay = 0 ∨ p.peerAlive = false) → (p.sfrRelHeartbeat add hp flags).1.AckReady))
  | .data _ _ | .gap _ _ | .unblock _ => .isTrue trivial

instance (p : RemWriter) (e : ReaderEvent) : Decidable (KeepsAcks p e) := by unfold KeepsAcks; infer_instance

def Sends (es : List ReaderEvent) (p p' : RemWriter) : Prop :=
  ∃ sent, p'.acknacks = p.acknacks ++ sent ∧ ∀ k ∈ sent, Sound es p' k

theorem Sends.nothing (h : p'.acknacks = p.acknacks) : Sends es p p' := ⟨[], by simp [h], by simp⟩

theorem Sends.one (h : p'.acknacks = p.acknacks ++ [k]) (hk : Sound es p' k) : Sends es p p' :=
  ⟨[k], h, by simpa using hk⟩

theorem Ends.acknacks (h : Ends add q p') : p'.acknacks = q.acknacks := by
  rcases h with rfl | rfl <;> rfl

theorem initAcknack_sound (es : List ReaderEvent) (p : RemWriter) : Sound es p ⟨0, []⟩ := by
  constructor
  · rintro s h1 (hs | ⟨_, hbit⟩)
    · simp only at hs
      omega
    · simp at hbit
  · rintro s ⟨_, hbit⟩
    simp at hbit

theorem timeout_sends (hl : LossInv es p) (hr : RangeInv p) (hk : p.hbrspTimer = some .hbrsp → p.AckReady) :
    Sends es p p.timeout := by
  have hl' := hl.of_same (timeout_same p)
  have hr' := hr.of_same (timeout_same p)
  revert hl' hr'
  unfold timeout sfrRelDoAck
  split
  · exact fun _ _ => .one rfl (initAcknack_sound es _)
  · rename_i ht
    have hready := hk ht
    split <;> exact fun hl' hr' => .one rfl (ackNack_sound hl' hr' hready)
  · exact fun _ _ => .nothing rfl

theorem heartbeat_sends (hr : RangeInv p)
    (hl' : LossInv es (p.sfrRelHeartbeat add hp flags).1) (hr' : RangeInv (p.sfrRelHeartbeat add hp flags).1)
    (ha : Answers p (.heartbeat hp flags add)) :
    Sends es p (p.sfrRelHeartbeat add hp flags).1 := by
  by_cases hnow : p.heartbeatRespDelay = 0 ∨ p.peerAlive = false
  · obtain ⟨a, b, _, hcov⟩ := hr.cover
    have hc := upright_closed
    rcases sfrRelHeartbeat_spec add hp flags hc hcov (fun _ _ => trivial) with
      ⟨_, _, hacks⟩ | ⟨hig, _, _, _, _, hacks | hacks⟩
    · exact .nothing hacks
    · exact .nothing hacks
    · exact .one hacks (ackNack_sound hl' hr' (ha hig hnow))
  · obtain ⟨hd, halive⟩ := not_or.1 hnow
    exact .nothing (sfrRelHeartbeat_silent add hp flags hd (by simpa using halive))

theorem unblock_acknacks (add : Int → AddRes) (p : RemWriter) : (p.unblock add).acknacks = p.acknacks := by
  unfold unblock
  split <;> rfl

theorem step_sends (hl : LossInv es p) (hr : RangeInv p) (hk : KeepsAcks p e) (hs : p.step e = some p') :
    Sends (es ++ [e]) p p' := by
  obtain ⟨hrange, hcount, hans⟩ := hk
  have hl' := hl.step hcount hs
  have hr' := hr.step hrange hs
  have hc := upright_closed
  obtain ⟨a, b, _, hcov⟩ := hr.cover
  cases e with
  | data d add =>
    rcases sfrRelData_spec hc hcov (fun _ => trivial) (fun _ => uprightBy_widens p d) hrange hs with hd | ⟨q, hq, he⟩
    · exact .nothing hd.acknacks
    · exact .nothing (he.acknacks.trans hq.acknacks)
  | gap gp add =>
    cases hs
    obtain ⟨q, hq, he⟩ := sfrRelGap_spec add hc hcov (fun _ _ => trivial)
      (by simpa using (show CutsFit (fun a b => a ≤ b) p gp from hrange))
    exact .nothing (he.acknacks.trans hq.acknacks)
  | heartbeat hp flags add =>
    cases hs
    exact heartbeat_sends hr hl' hr' hans
  | timeout =>
    cases hs
    exact timeout_sends (hl.mono _) hr hans
  | unblock add =>
    cases hs
    exact .nothing (unblock_acknacks add p)

def twoMissing : List ReaderEvent :=
  [.data ⟨1, false, none, true⟩ fun _ => .ok, .heartbeat ⟨1, 3, 1⟩ ⟨false, false⟩ fun _ => .ok,
    .data ⟨3, false, none, true⟩ fun _ => .ok]

end Qeo.Rtps
