import QeoCore.SfrrHeartbeat
/-!
# SfrrRange — the change list of a reader covers what lies ahead

Two things break the list.  A HEARTBEAT moves `rw_seqnr_next` to its `first_sn` even when the cache has just refused a
sample below it.  And a GAP that starts below the head may end inside a range before that range has begun.
-/
namespace Qeo.Rtps

open RemWriter Ccref Trace

variable {p p' q : RemWriter} {add : Int → AddRes} {a b : Int}

/-! ## Ranges the right way round -/

/-- Ranges end at most `d` before they begin, and only received samples have fragments. -/
def uprightBy (d : Int) : NodeOk := fun st f e =>
  (f = true → st = .received ∧ ∃ s, e = .sample s) ∧ match e with
    | .sample _ => True
    | .range a b => a ≤ b + d

theorem uprightBy_closed (h0 : 0 ≤ d) (h1 : d ≤ 1) (irr lost : Int → Prop) :
    Closed (uprightBy d) (fun a b => a ≤ b + d) irr lost where
  fits_of_le h := by omega
  upright := .inl fun h => by have := h.2; omega
  fragmented h := h.1 rfl
  sample s f := ⟨fun _ => ⟨rfl, s, rfl⟩, trivial⟩
  missing h := ⟨nofun, by omega⟩
  irrelevant h _ := ⟨nofun, by omega⟩
  growMissing h _ _ := ⟨nofun, by have := h.2; omega⟩
  growReceived h _ _ _ _ := ⟨nofun, by have := h.2; omega⟩
  part _ _ _ _ := ⟨nofun, by omega⟩
  front _ h hb _ := ⟨nofun, by have := h.2; omega⟩
  back _ _ _ := ⟨nofun, by omega⟩
  loseSample _ _ := ⟨nofun, trivial⟩
  loseRange h _ := ⟨nofun, h.2⟩

theorem upright_closed : Closed (uprightBy 0) (fun a b => a ≤ b + 0) (fun _ => True) fun _ => True :=
  uprightBy_closed (Int.le_refl 0) (by omega) _ _

theorem uprightBy_widens (p : RemWriter) (m : DataSMsg) : WidensOk (uprightBy d) p m := by
  intro head rest x y _ _ hlt _ hok
  have := hok.2
  exact ⟨nofun, by omega⟩

theorem Ccref.first_le_last_add (h0 : 0 ≤ n) (hd : d ≤ n) {rp : RwRef} (h : rp.Ok (uprightBy d)) :
    rp.first ≤ rp.last + n := by
  have hok := h.2
  cases hu : rp.u with
  | sample s =>
    rw [first_of_sample hu, last_of_sample hu]
    omega
  | range a b =>
    rw [hu] at hok
    have hab : a ≤ b + d := hok
    rw [first_of_range hu, last_of_range hu]
    omega

theorem drain_next_le : ∀ {nodes : List RwRef} {next : Int}, (∀ rp ∈ nodes, rp.first ≤ rp.last + 1) →
    next ≤ (drain add next nodes).next
  | [], next, _ => Int.le_refl next
  | rp :: rest, next, h => by
    have ih : ∀ n, n ≤ (drain add n rest).next := fun n => drain_next_le (List.forall_mem_cons.1 h).2
    have hrp := h rp (by simp)
    rcases drain_cons_cases add next rp rest with ⟨he, _⟩ | ⟨hf, _, ⟨s, _, _, _, he⟩ | ⟨s, hu, _, _, he⟩ | ⟨_, he⟩⟩
    · exact Int.le_of_eq (congrArg Drain.next he).symm
    · exact Int.le_of_eq (congrArg Drain.next he).symm
    · rw [he]
      have := ih (s + 1)
      have := first_of_sample hu
      simp only [Drain.cons]
      omega
    · rw [he]
      have := ih (rp.last + 1)
      simp only [Drain.cons]
      omega

theorem Cover.drain_next_le (add : Int → AddRes) (hd : d ≤ 1) (h : Cover (uprightBy d) a nodes b) (next : Int) :
    next ≤ (drain add next nodes).next :=
  Rtps.drain_next_le fun _ hr => first_le_last_add (by decide) hd (h.all _ hr)

/-! ## A HEARTBEAT that catches up -/

def Takes (add : Int → AddRes) (firstSn : Int) (nodes : List RwRef) : Prop :=
  ∀ rp ∈ nodes, rp.relevant = true → rp.state = .received → rp.fragments = false → rp.first < firstSn →
    add rp.first ≠ .noData

/-- A sample that was not received in whole is lost. -/
theorem markLost_sample (rest : List RwRef) (hlt : next < firstSn) (hu : rp.u = .sample s) :
    ∃ rp', (markLost firstSn next (rp :: rest)).1 = rp' :: (markLost firstSn (next + 1) rest).1 ∧ rp'.u = .sample s ∧
      rp'.settled = true ∧ (rp.state = .received ∧ rp.fragments = false ∧ rp' = rp ∨
        ¬ (rp.state = .received ∧ rp.fragments = false) ∧ rp'.state = .lost) := by
  by_cases h : rp.state = .received ∧ rp.fragments = false
  · exact ⟨rp, by simp [markLost, hlt, hu, h], hu, settled_of_received h.1 h.2, .inl ⟨h.1, h.2, rfl⟩⟩
  · have h' : rp.state ≠ .received ∨ rp.fragments = true := by grind
    exact ⟨_, by simp only [markLost, if_pos hlt, hu, if_pos h']; rfl, rfl, settled_of_lost rfl, .inr ⟨h, rfl⟩⟩

theorem drain_markLost (h0 : 0 ≤ d) (hd : d ≤ 1) : ∀ {nodes : List RwRef} {a : Int},
    Cover (uprightBy d) a nodes b → Takes add firstSn nodes →
    firstSn ≤ (drain add a (markLost firstSn a nodes).1).next ∨ (drain add a (markLost firstSn a nodes).1).nodes = []
  | [], a, _, _ => .inr rfl
  | rp :: rest, a, h, ht => by
    have hc := uprightBy_closed h0 hd (fun _ => True) (fun _ => True)
    obtain ⟨ha, hok, hrest⟩ := h
    have ht' := (List.forall_mem_cons.1 ht).2
    by_cases hlt : a < firstSn
    · cases hu : rp.u with
      | sample s =>
        obtain rfl : s = a := by rw [← ha, first_of_sample hu]
        rw [last_of_sample hu] at hrest
        have ih := drain_markLost h0 hd hrest ht'
        obtain ⟨rp', hm, hu', hset, hst⟩ := markLost_sample rest hlt hu
        obtain ⟨calls, he⟩ := drain_pop add s (markLost firstSn (s + 1) rest).1 (first_of_sample hu') hset
          fun t htu hrec => by
            rcases hst with ⟨hst, hfr, rfl⟩ | ⟨-, hst⟩
            · cases hu'.symm.trans htu
              have := ht rp' (by simp) (relevant_of_sample hu) hst hfr (by omega)
              rwa [ha] at this
            · cases hst.symm.trans hrec
        rw [hm, he, last_of_sample hu']
        exact ih
      | range x y =>
        obtain rfl : x = a := by rw [← ha, first_of_range hu]
        rw [last_of_range hu] at hrest
        obtain ⟨hr, hfr⟩ := ok_range hc hok hu
        have hset : ∀ e, ({ rp with state := if rp.state ≠ .received then .lost else rp.state, u := e } : RwRef).settled
            = true := by
          intro e
          by_cases hst : rp.state = .received
          · exact settled_of_received (by simp [hst]) hfr
          · exact settled_of_lost (by simp [hst])
        simp only [markLost, if_pos hlt, hu]
        split
        · obtain ⟨calls, he⟩ := drain_pop add x (.gap () firstSn y rp.state :: rest) rfl
            (hset (.range x (firstSn - 1))) (by rintro s ⟨⟩)
          rw [he]
          have hcov : Cover (uprightBy d) firstSn (.gap () firstSn y rp.state :: rest) b :=
            ⟨rfl, hc.part hr (by omega) ‹_› (Int.le_refl y), hrest⟩
          have := hcov.drain_next_le add hd firstSn
          refine .inl ?_
          simpa [Drain.cons, last] using this
        · obtain ⟨calls, he⟩ := drain_pop add x (markLost firstSn (y + 1) rest).1 rfl (hset (.range x y))
            (by rintro s ⟨⟩)
          have ih := drain_markLost h0 hd hrest ht'
          rw [he]
          exact ih
    · have hm : (markLost firstSn a (rp :: rest)).1 = rp :: rest := by rw [markLost, if_neg hlt]
      rw [hm]
      have hcov : Cover (uprightBy d) a (rp :: rest) b := ⟨ha, hok, hrest⟩
      have := hcov.drain_next_le add hd a
      exact .inl (by omega)

/-! ## The invariant -/

/-- **`rtps_range_check`, and the link to `rw_seqnr_next`.**  The list is a contiguous ascending cover, `nchanges`
counts its nodes, and it does not start below `rw_seqnr_next`. -/
structure RemWriter.RangeOk (p : RemWriter) : Prop where
  contiguous : p.changes.nodes.IsChain fun x y => y.first = x.last + 1
  ascending : ∀ rp ∈ p.changes.nodes, rp.first ≤ rp.last
  counted : p.changes.nchanges = p.changes.nodes.length
  head : ∀ rp ∈ p.changes.nodes.head?, p.seqnrNext ≤ rp.first

structure RangeInv (p : RemWriter) : Prop where
  counted : p.changes.Counted
  cover : ∃ a b, p.seqnrNext ≤ a ∧ Cover (uprightBy 0) a p.changes.nodes b

theorem RangeInv.rangeOk (h : RangeInv p) : p.RangeOk := by
  obtain ⟨a, b, ha, hcov⟩ := h.cover
  refine ⟨hcov.isChain, fun rp hrp => ?_, h.counted, fun rp hrp => ?_⟩
  · have hle := first_le_last_add (Int.le_refl 0) (Int.le_refl 0) (hcov.all rp hrp)
    omega
  obtain ⟨rest, hr⟩ := List.head?_eq_some_iff.1 hrp
  rw [hr] at hcov
  have := hcov.1
  omega

/-- The steps that keep it: a first fragment gets its context, a GAP cuts no range before that range begins, and a
HEARTBEAT moves `rw_seqnr_next` past no sample that the cache refuses. -/
def KeepsRange (p : RemWriter) : ReaderEvent → Prop
  | .data d _ => ¬ freesChange p d
  | .gap gp _ => CutsFit (fun a b => a ≤ b) p gp
  | .heartbeat hp flags add =>
    p.ignoresHeartbeat hp flags = false → p.seqnrNext < hp.firstSn → Takes add hp.firstSn p.changes.nodes
  | .timeout | .unblock _ => True

instance (add : Int → AddRes) (firstSn : Int) (nodes : List RwRef) : Decidable (Takes add firstSn nodes) := by
  unfold Takes; infer_instance

instance (p : RemWriter) : (e : ReaderEvent) → Decidable (KeepsRange p e)
  | .data d _ => inferInstanceAs (Decidable (¬ freesChange p d))
  | .gap gp _ => inferInstanceAs (Decidable (CutsFit (fun a b => a ≤ b) p gp))
  | .heartbeat hp flags add => inferInstanceAs (Decidable
      (p.ignoresHeartbeat hp flags = false → p.seqnrNext < hp.firstSn → Takes add hp.firstSn p.changes.nodes))
  | .timeout | .unblock _ => .isTrue trivial

namespace RangeInv

theorem of_edited (ha : p.seqnrNext ≤ a) (hcnt : p.changes.Counted) (h : Edited (uprightBy 0) a p q) :
    RangeInv q := by
  obtain ⟨a', b', ha', hcov⟩ := h.cover
  have := h.next
  exact ⟨h.counted hcnt, a', b', by omega, hcov⟩

theorem of_process (h : RangeInv p) (add : Int → AddRes) : RangeInv (p.sfrProcessSamples add) := by
  obtain ⟨a, b, ha, hcov⟩ := h.cover
  obtain ⟨a', hcov', h'⟩ := drain_cover add p.seqnrNext hcov
  refine ⟨sfrProcessSamples_counted h.counted, a', b, ?_, hcov'⟩
  simp only [sfrProcessSamples]
  omega

theorem of_ends (h : RangeInv q) (he : Ends add q p') : RangeInv p' := by
  rcases he with rfl | rfl
  · exact h
  · exact h.of_process add

theorem of_direct (h : RangeInv p) (hd : Direct add p d p') : RangeInv p' := by
  refine ⟨by rw [hd.changes]; exact h.counted, p'.seqnrNext, p'.seqnrNext, Int.le_refl _, ?_⟩
  rw [hd.changes, hd.nodes]
  rfl

theorem of_same (h : RangeInv p) (hs : Same p p') : RangeInv p' := by
  obtain ⟨hcnt, a, b, ha, hcov⟩ := h
  exact ⟨by rw [hs.changes]; exact hcnt, a, b, by rw [hs.next]; exact ha, by rw [hs.changes]; exact hcov⟩

theorem of_hbFirst (hn : p.seqnrNext ≤ a) (hcov : Cover (uprightBy 0) a p.changes.nodes b)
    (hcnt : p.changes.Counted) (ht : p.seqnrNext < firstSn → Takes add firstSn p.changes.nodes)
    (h : HbFirst (uprightBy 0) add firstSn a b p q) : RangeInv q := by
  refine ⟨h.counted hcnt, ?_⟩
  rcases h.moved with ⟨hup, hq, _, hnodes, hcv⟩ | ⟨⟨_, _, _, _, hlt⟩, _, hm, hq, hnodes, _⟩
  · cases hpn : p.changes.nodes with
    | nil =>
      rw [hpn] at hnodes
      exact ⟨q.seqnrNext, q.seqnrNext, Int.le_refl _, by rw [hnodes]; rfl⟩
    | cons head rest =>
      have hf : head.first = a := by rw [hpn] at hcov; exact hcov.1
      have : ¬ (head.first ≤ firstSn ∧ p.seqnrNext < firstSn) := fun h' => hup ⟨head, rest, hpn, h'⟩
      exact ⟨a, b, by omega, hcv⟩
  · obtain ⟨a', hcv, ha'⟩ := drain_cover add a hm
    rcases drain_markLost (Int.le_refl 0) (by omega) hcov (ht hlt) with hle | hnil
    · exact ⟨a', b, by omega, by rw [hnodes]; exact hcv⟩
    · rw [hnil] at hnodes
      exact ⟨q.seqnrNext, q.seqnrNext, Int.le_refl _, by rw [hnodes]; rfl⟩

theorem step (h : RangeInv p) (hk : KeepsRange p e) (hs : p.step e = some p') : RangeInv p' := by
  have hc := upright_closed
  obtain ⟨a, b, ha, hcov⟩ := h.cover
  cases e with
  | data d add =>
    rcases sfrRelData_spec hc hcov (fun _ => trivial) (fun _ => uprightBy_widens p d) hk hs with hd | ⟨q, hq, he⟩
    · exact h.of_direct hd
    · exact (of_edited ha h.counted hq).of_ends he
  | gap gp add =>
    cases hs
    have hk' : CutsFit (fun a b => a ≤ b + 0) p gp := by
      simp only [Int.add_zero]
      exact hk
    obtain ⟨q, hq, he⟩ := sfrRelGap_spec add hc hcov (fun _ _ => trivial) hk'
    exact (of_edited ha h.counted hq).of_ends he
  | heartbeat hp flags add =>
    cases hs
    rcases sfrRelHeartbeat_spec add hp flags hc hcov (fun _ _ => trivial) with
      ⟨_, hsame, _⟩ | ⟨hig, q, hq, hsame, _, _⟩
    · exact h.of_same hsame
    · have hq' := of_hbFirst ha hcov h.counted (hk hig) hq
      obtain ⟨a', b', ha', hcov'⟩ := hq'.cover
      exact (of_edited ha' hq'.counted (heartbeatMissing_edited hc hcov' hp.lastSn)).of_same hsame
  | timeout =>
    cases hs
    exact h.of_same (timeout_same p)
  | unblock add =>
    cases hs
    obtain ⟨q, hsame, he⟩ := unblock_ends add p
    exact (h.of_same hsame).of_ends he

theorem start (cacheAcks : Bool) (delay : Nat) : RangeInv (sfrRelStart cacheAcks delay) :=
  ⟨rfl, 1, 1, Int.le_refl 1, rfl⟩

end RangeInv

/-- **The reader's change list.**  In every run in which DATA, GAPs and HEARTBEATs keep to `KeepsRange`, the list is a
contiguous ascending cover that starts at `rw_seqnr_next` or above. -/
theorem rangeOk_of_run {cacheAcks : Bool} {delay : Nat} {es : List ReaderEvent}
    (h : Run RemWriter.step (fun p e => e.Valid ∧ KeepsRange p e) (sfrRelStart cacheAcks delay) es p) : p.RangeOk :=
  (h.invariant (fun _ p => RangeInv p) (RangeInv.start cacheAcks delay)
    fun _ _ _ _ hi hok hs => hi.step hok.2 hs).rangeOk

/-- An out-of-order DATA, a HEARTBEAT that notes what is missing, a GAP over some of it, and a HEARTBEAT that gives up
the rest below 4. -/
theorem rangeOk_after_gap_and_loss :
    ((exec RemWriter.step (fun p e => e.Valid ∧ KeepsRange p e) (sfrRelStart false 0)
      [.data ⟨5, false, none, true⟩ fun _ => .ok, .heartbeat ⟨1, 9, 1⟩ ⟨true, false⟩ fun _ => .ok,
        .gap ⟨2, 4, [true, false, true]⟩ fun _ => .ok, .heartbeat ⟨4, 9, 2⟩ ⟨true, false⟩ fun _ => .ok]).get
      (by decide)).RangeOk :=
  rangeOk_of_run (Run.of_isSome _)

/-- **Both conditions are needed.**  A full cache refuses sample 5, and a HEARTBEAT from 7 on moves `rw_seqnr_next` past
it.  A GAP over 4 to 6 with 5, 6 and 9 queued ends before the missing range 7 to 8 begins. -/
theorem rangeOk_broken :
    (∃ es p, Run RemWriter.step (fun _ e => e.Valid) (sfrRelStart false 0) es p ∧ p.seqnrNext = 7 ∧
      p.changes.nodes.head? = some (received 5) ∧ ¬ p.RangeOk) ∧
    ∃ es p, Run RemWriter.step (fun _ e => e.Valid) (sfrRelStart false 0) es p ∧
      .gap () 7 6 .received ∈ p.changes.nodes ∧ ¬ p.RangeOk := by
  constructor
  · exact ⟨[.data ⟨5, false, none, true⟩ fun _ => .ok, .heartbeat ⟨7, 7, 1⟩ ⟨true, false⟩ fun _ => .noData], _,
      Run.of_isSome, by decide, by decide, fun h => absurd (h.head (received 5) (by decide)) (by decide)⟩
  · exact ⟨[.data ⟨5, false, none, true⟩ fun _ => .ok, .data ⟨6, false, none, true⟩ fun _ => .ok,
      .data ⟨9, false, none, true⟩ fun _ => .ok, .gap ⟨4, 7, []⟩ fun _ => .ok], _, Run.of_isSome,
      by decide, fun h => absurd (h.ascending (.gap () 7 6 .received) (by decide)) (by decide)⟩

end Qeo.Rtps
