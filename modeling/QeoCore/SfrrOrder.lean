import QeoCore.SfrrRange
/-!
# SfrrOrder — samples are delivered in order, each at most once

Samples reach the cache past the list or from its head, which stays above everything delivered as long as the numbers of
the list do not run backwards.  They do after a GAP that ends more than one number before the range it cuts (SfrrRange).
-/
namespace Qeo.Rtps

open List Trace RemWriter

variable {p p' q : RemWriter} {add : Int → AddRes} {a b next : Int}

def RemWriter.accepted (p : RemWriter) : List Int := (p.handed.filter fun c => c.2 == .ok).map Prod.fst

def taken (handed : List (Int × AddRes)) : List Int := (handed.filter fun c => c.2 != .noData).map Prod.fst

theorem taken_append (h h' : List (Int × AddRes)) : taken (h ++ h') = taken h ++ taken h' := by
  simp [taken]

theorem taken_refused (refused : List Int) : taken (refused.map (·, .noData)) = [] := by
  simp [taken]

theorem taken_cons (h : r ≠ .noData) (l : List (Int × AddRes)) : taken ((s, r) :: l) = s :: taken l := by
  simp [taken, h]

theorem accepted_sublist (p : RemWriter) : p.accepted.Sublist (taken p.handed) := by
  refine List.Sublist.map _ (monotone_filter_right _ fun c hc => ?_)
  rw [beq_iff_eq] at hc
  simp [hc]

theorem drain_taken (add : Int → AddRes) : ∀ {nodes : List RwRef} {a : Int} (next : Int),
    Cover (uprightBy 1) a nodes b →
    (taken (drain add next nodes).handed).Pairwise (· < ·) ∧
      ∀ s ∈ taken (drain add next nodes).handed, next ≤ s ∧ s < (drain add next nodes).next
  | [], _, _, _ => ⟨.nil, nofun⟩
  | rp :: rest, a, next, hcov => by
    have hle := Ccref.first_le_last_add (by decide) (Int.le_refl 1) (hcov.all rp (by simp))
    rcases drain_cons_cases add next rp rest with ⟨he, _⟩ | ⟨hf, _, ⟨s, _, _, _, he⟩ | ⟨s, hu, _, hadd, he⟩ | ⟨_, he⟩⟩
    · rw [he]
      exact ⟨.nil, nofun⟩
    · rw [he]
      exact ⟨.nil, nofun⟩
    · have hfs := Ccref.first_of_sample hu
      have hrest := hcov.2.2
      obtain ⟨hp, hb⟩ := drain_taken add (s + 1) hrest
      have hn := Cover.drain_next_le add (Int.le_refl 1) hrest (s + 1)
      rw [he]
      simp only [Drain.cons, singleton_append, taken_cons hadd]
      refine ⟨pairwise_cons.2 ⟨fun t ht => ?_, hp⟩, fun t ht => ?_⟩
      · have := (hb t ht).1
        omega
      rcases mem_cons.1 ht with rfl | ht
      · omega
      · have := hb t ht
        omega
    · obtain ⟨hp, hb⟩ := drain_taken add (rp.last + 1) hcov.2.2
      rw [he]
      simp only [Drain.cons, nil_append]
      refine ⟨hp, fun t ht => ?_⟩
      have := hb t ht
      omega

def OrderInv (p : RemWriter) : Prop :=
  (taken p.handed).Pairwise (· < ·) ∧
    ∃ a b, Cover (uprightBy 1) a p.changes.nodes b ∧ ∀ s ∈ taken p.handed, s < p.seqnrNext ∧ s < a

/-- The steps that keep it: a first fragment gets its context, and a GAP ends at most one number before a range it cuts
begins. -/
def KeepsOrder (p : RemWriter) : ReaderEvent → Prop
  | .data d _ => ¬ freesChange p d
  | .gap gp _ => CutsFit (fun a b => a ≤ b + 1) p gp
  | .heartbeat _ _ _ | .timeout | .unblock _ => True

instance (p : RemWriter) : (e : ReaderEvent) → Decidable (KeepsOrder p e)
  | .data d _ => inferInstanceAs (Decidable (¬ freesChange p d))
  | .gap gp _ => inferInstanceAs (Decidable (CutsFit (fun a b => a ≤ b + 1) p gp))
  | .heartbeat _ _ _ | .timeout | .unblock _ => .isTrue trivial

theorem OrderInv.of_edited (hp : (taken p.handed).Pairwise (· < ·)) (hb : ∀ s ∈ taken p.handed, s < p.seqnrNext ∧ s < a)
    (h : Edited (uprightBy 1) a p q) : OrderInv q := by
  obtain ⟨refused, hr⟩ := h.handed
  obtain ⟨a', b', ha', hcov⟩ := h.cover
  have htaken : taken q.handed = taken p.handed := by rw [hr, taken_append, taken_refused, append_nil]
  refine ⟨by rw [htaken]; exact hp, a', b', hcov, fun s hs => ?_⟩
  rw [htaken] at hs
  have := hb s hs
  have := h.next
  omega

theorem taken_drain (add : Int → AddRes) {handed : List (Int × AddRes)}
    (hcov : Cover (uprightBy 1) a nodes b) (hp : (taken handed).Pairwise (· < ·))
    (hb : ∀ s ∈ taken handed, s < next ∧ s < a) :
    (taken (handed ++ (drain add next nodes).handed)).Pairwise (· < ·) ∧
      ∃ a', Cover (uprightBy 1) a' (drain add next nodes).nodes b ∧
        ∀ s ∈ taken (handed ++ (drain add next nodes).handed), s < (drain add next nodes).next ∧ s < a' := by
  obtain ⟨hp', hb'⟩ := drain_taken add next hcov
  obtain ⟨a', hcov', ha'⟩ := drain_cover add next hcov
  have hn := Cover.drain_next_le add (Int.le_refl 1) hcov next
  rw [taken_append]
  refine ⟨pairwise_append.2 ⟨hp, hp', fun s hs t ht => ?_⟩, a', hcov', fun s hs => ?_⟩
  · have := hb s hs
    have := hb' t ht
    omega
  rcases mem_append.1 hs with hs | hs
  · have := hb s hs
    omega
  · have := hb' s hs
    omega

namespace OrderInv

theorem of_process (h : OrderInv p) (add : Int → AddRes) : OrderInv (p.sfrProcessSamples add) := by
  obtain ⟨hp, a, b, hcov, hb⟩ := h
  obtain ⟨hp', a', hcov', hb'⟩ := taken_drain add hcov hp hb
  exact ⟨hp', a', b, hcov', hb'⟩

theorem of_ends (h : OrderInv q) (he : Ends add q p') : OrderInv p' := by
  rcases he with rfl | rfl
  · exact h
  · exact h.of_process add

theorem of_same (h : OrderInv p) (hs : Same p p') : OrderInv p' := by
  unfold OrderInv at h ⊢
  rwa [hs.handed, hs.changes, hs.next]

theorem of_direct (h : OrderInv p) (hd : Direct add p d p') : OrderInv p' := by
  obtain ⟨hp, a, b, hcov, hb⟩ := h
  have hnext := hd.next
  have hnodes : Cover (uprightBy 1) p'.seqnrNext p'.changes.nodes p'.seqnrNext := by
    rw [hd.changes, hd.nodes]
    rfl
  rcases hd.handed with ⟨_, hh⟩ | ⟨hadd, hh⟩
  · refine ⟨by rw [hh]; exact hp, _, _, hnodes, fun s hs => ?_⟩
    rw [hh] at hs
    have := hb s hs
    omega
  have hsnr := hd.snr
  have htaken : taken p'.handed = taken p.handed ++ [d.writerSn] := by rw [hh, taken_append, taken_cons hadd]; rfl
  refine ⟨?_, _, _, hnodes, fun s hs => ?_⟩
  · rw [htaken]
    refine pairwise_append.2 ⟨hp, pairwise_singleton _ _, fun s hs t ht => ?_⟩
    rw [mem_singleton.1 ht]
    have := hb s hs
    omega
  · rw [htaken] at hs
    rcases mem_append.1 hs with hs | hs
    · have := hb s hs
      omega
    · rw [mem_singleton.1 hs]
      omega

theorem of_hbFirst (hp : (taken p.handed).Pairwise (· < ·))
    (hb : ∀ s ∈ taken p.handed, s < p.seqnrNext ∧ s < a) (h : HbFirst (uprightBy 1) add firstSn a b p q) :
    OrderInv q := by
  rcases h.moved with ⟨_, hq, hh, _, hcv⟩ | ⟨_, _, hm, hq, hnodes, hh⟩
  · refine ⟨by rw [hh]; exact hp, a, b, hcv, fun s hs => ?_⟩
    rw [hh] at hs
    have := hb s hs
    omega
  · obtain ⟨hp', a', hcv, hb'⟩ := taken_drain add hm hp fun s hs => ⟨(hb s hs).2, (hb s hs).2⟩
    refine ⟨by rw [hh]; exact hp', a', b, by rw [hnodes]; exact hcv, fun s hs => ?_⟩
    rw [hh] at hs
    have := hb' s hs
    omega

theorem step (h : OrderInv p) (hk : KeepsOrder p e) (hs : p.step e = some p') : OrderInv p' := by
  have hc := uprightBy_closed (show 0 ≤ 1 by omega) (Int.le_refl 1) (fun _ => True) (fun _ => True)
  obtain ⟨hp, a, b, hcov, hb⟩ := id h
  cases e with
  | data d add =>
    rcases sfrRelData_spec hc hcov (fun _ => trivial) (fun _ => uprightBy_widens p d) hk hs with hd | ⟨q, hq, he⟩
    · exact h.of_direct hd
    · exact (of_edited hp hb hq).of_ends he
  | gap gp add =>
    cases hs
    obtain ⟨q, hq, he⟩ := sfrRelGap_spec add hc hcov (fun _ _ => trivial) hk
    exact (of_edited hp hb hq).of_ends he
  | heartbeat hp' flags add =>
    cases hs
    rcases sfrRelHeartbeat_spec add hp' flags hc hcov (fun _ _ => trivial) with
      ⟨_, hsame, _⟩ | ⟨_, q, hq, hsame, _, _⟩
    · exact h.of_same hsame
    · obtain ⟨hpq, a', b', hcov', hb'⟩ := of_hbFirst hp hb hq
      exact (of_edited hpq hb' (heartbeatMissing_edited hc hcov' hp'.lastSn)).of_same hsame
  | timeout =>
    cases hs
    exact h.of_same (timeout_same p)
  | unblock add =>
    cases hs
    obtain ⟨q, hsame, he⟩ := unblock_ends add p
    exact (h.of_same hsame).of_ends he

theorem start (cacheAcks : Bool) (delay : Nat) : OrderInv (sfrRelStart cacheAcks delay) :=
  ⟨.nil, 1, 1, rfl, nofun⟩

end OrderInv

/-- **In order, at most once.**  In every run whose DATA and GAPs keep to `KeepsOrder`, the numbers of the samples the
cache accepts increase strictly. -/
theorem accepted_increasing_of_run {cacheAcks : Bool} {delay : Nat} {es : List ReaderEvent}
    (h : Run RemWriter.step (fun p e => e.Valid ∧ KeepsOrder p e) (sfrRelStart cacheAcks delay) es p) :
    p.accepted.Pairwise (· < ·) :=
  (h.invariant (fun _ p => OrderInv p) (OrderInv.start cacheAcks delay)
    fun _ _ _ _ hi hok hs => hi.step hok.2 hs).1.sublist (accepted_sublist p)

/-- Samples out of order, one of them twice, and a GAP over one that is missing. -/
theorem accepted_increasing_out_of_order :
    ((exec RemWriter.step (fun p e => e.Valid ∧ KeepsOrder p e) (sfrRelStart false 0)
      [.data ⟨3, false, none, true⟩ fun _ => .ok, .data ⟨1, false, none, true⟩ fun _ => .ok,
        .heartbeat ⟨1, 4, 1⟩ ⟨true, false⟩ fun _ => .ok, .data ⟨1, false, none, true⟩ fun _ => .ok,
        .gap ⟨2, 3, []⟩ fun _ => .ok, .data ⟨4, false, none, true⟩ fun _ => .ok]).get (by decide)).accepted.Pairwise
      (· < ·) :=
  accepted_increasing_of_run (Run.of_isSome _)

/-- **The condition is needed.**  Samples 5 to 8 and 13 are queued.  A GAP over 1 to 6 cuts the missing range 9 to 12 at
6, a HEARTBEAT has 5 to 8 delivered and `rw_seqnr_next` set back to 7, and another DATA 7 is delivered. -/
theorem accepted_twice :
    ∃ es p, Run RemWriter.step (fun _ e => e.Valid) (sfrRelStart false 0) es p ∧
      p.accepted = [5, 6, 7, 8, 7] ∧ ¬ p.accepted.Pairwise (· < ·) :=
  ⟨[.data ⟨5, false, none, true⟩ fun _ => .ok, .data ⟨6, false, none, true⟩ fun _ => .ok,
    .data ⟨7, false, none, true⟩ fun _ => .ok, .data ⟨8, false, none, true⟩ fun _ => .ok,
    .data ⟨13, false, none, true⟩ fun _ => .ok, .gap ⟨1, 7, []⟩ fun _ => .ok,
    .heartbeat ⟨5, 13, 1⟩ ⟨true, false⟩ fun _ => .ok, .data ⟨7, false, none, true⟩ fun _ => .ok], _,
    Run.of_isSome, by decide, by decide⟩

end Qeo.Rtps
