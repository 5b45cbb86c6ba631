import QeoCore.SfrrHeartbeat
/-!
# SfrrLoss — no sample is lost in silence

`rw_seqnr_next` moves past a number only when the sample has been handed to the cache, or the writer has said that there
is none, or that it has it no more.  One edit breaks it: `sfr_rel_data` has the head grow over a gap if the *tail* of
the list is missing, and a head that is a received range then covers numbers nobody has spoken of.
-/
namespace Qeo.Rtps

open List Ccref Trace RemWriter

variable {p p' q : RemWriter} {add : Int → AddRes} {a b : Int} {es : List ReaderEvent} {e : ReaderEvent}

/-! ## What the writer has said -/

section
variable (es : List ReaderEvent)

def Told (s : Int) : Prop :=
  (∃ d add, .data d add ∈ es ∧ d.ignore = true ∧ d.writerSn = s) ∨ ∃ gp add, .gap gp add ∈ es ∧ gp.Covers s

def GivenUp (s : Int) : Prop :=
  ∃ hp flags add, .heartbeat hp flags add ∈ es ∧ s < hp.firstSn

variable (p : RemWriter) (s : Int)

def Accounted : Prop :=
  (∃ r, (s, r) ∈ p.handed) ∨ Told es s ∨ GivenUp es s

def RemWriter.Delivered : Prop := ∃ r, r ≠ .noData ∧ (s, r) ∈ p.handed

/-- What really holds of the numbers behind: a sample refused for lack of room is not one of them. -/
def Passed : Prop :=
  p.Delivered s ∨ Told es s ∨ GivenUp es s

end

theorem Passed.accounted (h : Passed es p s) : Accounted es p s := h.imp (fun ⟨r, _, hr⟩ => ⟨r, hr⟩) id

theorem Told.mono (h : Told es s) (e : ReaderEvent) : Told (es ++ [e]) s := by
  rcases h with ⟨d, add, hm, h⟩ | ⟨gp, add, hm, h⟩
  · exact .inl ⟨d, add, mem_append_left _ hm, h⟩
  · exact .inr ⟨gp, add, mem_append_left _ hm, h⟩

theorem GivenUp.mono (h : GivenUp es s) (e : ReaderEvent) : GivenUp (es ++ [e]) s := by
  obtain ⟨hp, flags, add, hm, h⟩ := h
  exact ⟨hp, flags, add, mem_append_left _ hm, h⟩

theorem GivenUp.le (h : GivenUp es s) (ht : t ≤ s) : GivenUp es t := by
  obtain ⟨hp, flags, add, hm, h⟩ := h
  exact ⟨hp, flags, add, hm, by omega⟩

/-! ## What the list knows -/

/-- A lost sample and the numbers of a received range have been spoken of, a lost range has been given up; and a reader
knows no other states. -/
def accountedOk (es : List ReaderEvent) : NodeOk := fun st f e =>
  (f = true → st = .received ∧ ∃ s, e = .sample s) ∧ (st = .missing ∨ st = .received ∨ st = .lost) ∧ match e with
    | .sample s => st = .lost → Told es s ∨ GivenUp es s
    | .range a b => (st = .received → ∀ s, a ≤ s → s ≤ b → Told es s) ∧ (st = .lost → GivenUp es b)

theorem accountedOk_closed (es : List ReaderEvent) : Closed (accountedOk es) (fun _ _ => True) (Told es)
    (GivenUp es) where
  fits_of_le _ := trivial
  upright := .inr fun _ _ => trivial
  fragmented h := h.1 rfl
  sample s f := ⟨fun _ => ⟨rfl, s, rfl⟩, by simp, nofun⟩
  missing _ := ⟨nofun, by simp, nofun, nofun⟩
  irrelevant _ h := ⟨nofun, by simp, fun _ => h, nofun⟩
  growMissing _ _ _ := ⟨nofun, by simp, nofun, nofun⟩
  growReceived {a b a' b'} h h1 h2 hl hr := by
    refine ⟨nofun, by simp, fun _ s hs1 hs2 => ?_, nofun⟩
    by_cases ha : s < a
    · exact hl s hs1 ha
    · by_cases hb : b < s
      · exact hr s hb hs2
      · exact h.2.2.1 rfl s (by omega) (by omega)
  part h h1 _ h3 :=
    ⟨nofun, h.2.1, fun hst s hs1 hs2 => h.2.2.1 hst s (by omega) (by omega), fun hst => (h.2.2.2 hst).le h3⟩
  front _ _ _ h := ⟨nofun, by simp, fun _ => h, nofun⟩
  back hst h _ := ⟨nofun, h.2.1, fun h' => absurd h' hst, h.2.2.2⟩
  loseSample _ h := ⟨nofun, by simp, fun _ => h⟩
  loseRange _ h := ⟨nofun, by simp, nofun, fun _ => h⟩

theorem accountedOk_mono (e : ReaderEvent) (h : Cover (accountedOk es) a nodes b) :
    Cover (accountedOk (es ++ [e])) a nodes b := by
  refine h.imp fun rp _ hok => ⟨hok.1, hok.2.1, ?_⟩
  have := hok.2.2
  revert this
  cases rp.u with
  | sample s => exact fun h hst => (h hst).imp (Told.mono · e) (GivenUp.mono · e)
  | range x y => exact fun h => ⟨fun hst s h1 h2 => (h.1 hst s h1 h2).mono e, fun hst => (h.2 hst).mono e⟩

theorem drain_accounted (add : Int → AddRes) : ∀ {nodes : List RwRef} (next : Int),
    (∀ rp ∈ nodes, rp.Ok (accountedOk es)) → ∀ s, next ≤ s → s < (drain add next nodes).next →
      (∃ r, r ≠ .noData ∧ (s, r) ∈ (drain add next nodes).handed) ∨ Told es s ∨ GivenUp es s
  | [], next, _, s, h1, h2 => by
    simp only [drain] at h2
    omega
  | rp :: rest, next, hok, s, h1, h2 => by
    have hrp := hok rp (by simp)
    have hrest := (forall_mem_cons.1 hok).2
    rcases drain_cons_cases add next rp rest with ⟨he, _⟩ |
    ⟨hf, hset, ⟨t, _, _, _, he⟩ | ⟨t, hu, _, hadd, he⟩ | ⟨hl, he⟩⟩
    · rw [he] at h2
      simp only at h2
      omega
    · rw [he] at h2
      simp only at h2
      omega
    · rw [he] at h2 ⊢
      have ht := first_of_sample hu
      by_cases hst : s = t
      · exact .inl ⟨add t, hadd, by simp [Drain.cons, hst]⟩
      · rcases drain_accounted add (t + 1) hrest s (by omega) h2 with ⟨r, hno, hr⟩ | h
        · exact .inl ⟨r, hno, by simp [Drain.cons, hr]⟩
        · exact .inr h
    rw [he] at h2 ⊢
    by_cases hst : s ≤ rp.last
    · -- The node itself: a lost sample, or a range.
      refine .inr ?_
      unfold Ok accountedOk at hrp
      cases hu : rp.u with
      | sample t =>
        have hlost := hl t hu
        rw [hu] at hrp
        have h1' := first_of_sample hu
        have h2' := last_of_sample hu
        obtain rfl : s = t := by omega
        exact hrp.2.2 hlost
      | range x y =>
        rw [hu] at hrp
        rw [first_of_range hu] at hf
        rw [last_of_range hu] at hst
        by_cases hr : rp.state = .received
        · exact .inl (hrp.2.2.1 hr s (by omega) hst)
        have hlost : rp.state = .lost := by
          unfold settled at hset
          revert hset hr
          cases rp.state <;> simp
        exact .inr ((hrp.2.2.2 hlost).le hst)
    · rcases drain_accounted add (rp.last + 1) hrest s (by omega) h2 with ⟨r, hno, hr⟩ | h
      · exact .inl ⟨r, hno, by simp [Drain.cons, hr]⟩
      · exact .inr h

/-! ## The invariant -/

def LossInv (es : List ReaderEvent) (p : RemWriter) : Prop :=
  (∃ a b, Cover (accountedOk es) a p.changes.nodes b) ∧ ∀ s, 1 ≤ s → s < p.seqnrNext → Passed es p s

def widens (p : RemWriter) (d : DataSMsg) : Prop :=
  queues p d ∧ tailMissing p.changes = true ∧ p.changes.nodes.head?.any (fun head =>
    !head.relevant && head.state == .received && decide (d.writerSn + 1 < head.first)) = true

instance (p : RemWriter) (d : DataSMsg) : Decidable (widens p d) := by unfold widens; infer_instance

/-- The steps that keep it: no DATA `widens` the head, and a first fragment gets its context. -/
def KeepsCount (p : RemWriter) : ReaderEvent → Prop
  | .data d _ => ¬ widens p d ∧ ¬ freesChange p d
  | .gap _ _ | .heartbeat _ _ _ | .timeout | .unblock _ => True

instance (p : RemWriter) : (e : ReaderEvent) → Decidable (KeepsCount p e)
  | .data d _ => inferInstanceAs (Decidable (¬ widens p d ∧ ¬ freesChange p d))
  | .gap _ _ | .heartbeat _ _ _ | .timeout | .unblock _ => .isTrue trivial

theorem widensOk_of_not_widens (h : ¬ widens p d) (hq : queues p d) : WidensOk (accountedOk es) p d := by
  intro head rest x y hn hu hlt ht hok
  have hst : head.state ≠ .received := by
    intro hst
    refine h ⟨hq, ht, ?_⟩
    simp [hn, relevant_of_range hu, hst, first_of_range hu, hlt]
  exact ⟨nofun, hok.2.1, fun h' => absurd h' hst, hok.2.2.2⟩

theorem Passed.mono (h : Passed es p s) (e : ReaderEvent) : Passed (es ++ [e]) p s :=
  h.imp id (Or.imp (Told.mono · e) (GivenUp.mono · e))

theorem Passed.of_handed (h : Passed es p s) (hh : ∀ c ∈ p.handed, c ∈ q.handed) : Passed es q s :=
  h.imp (fun ⟨r, hno, hr⟩ => ⟨r, hno, hh _ hr⟩) id

namespace LossInv

theorem mono (h : LossInv es p) (e : ReaderEvent) : LossInv (es ++ [e]) p := by
  obtain ⟨⟨a, b, hcov⟩, hacc⟩ := h
  exact ⟨⟨a, b, accountedOk_mono e hcov⟩, fun s h1 h2 => (hacc s h1 h2).mono e⟩

theorem of_edited (h : LossInv es p) (hq : Edited (accountedOk es) a p q) : LossInv es q := by
  obtain ⟨a', b', _, hcov⟩ := hq.cover
  obtain ⟨refused, hr⟩ := hq.handed
  refine ⟨⟨a', b', hcov⟩, fun s h1 h2 => ?_⟩
  rw [hq.next] at h2
  exact (h.2 s h1 h2).of_handed fun c hc => by rw [hr]; exact mem_append_left _ hc

theorem of_process (h : LossInv es p) (add : Int → AddRes) : LossInv es (p.sfrProcessSamples add) := by
  obtain ⟨⟨a, b, hcov⟩, hacc⟩ := h
  obtain ⟨a', hcov', _⟩ := drain_cover add p.seqnrNext hcov
  refine ⟨⟨a', b, hcov'⟩, fun s h1 h2 => ?_⟩
  by_cases hs : s < p.seqnrNext
  · exact (hacc s h1 hs).of_handed fun c hc => mem_append_left _ hc
  · rcases drain_accounted add p.seqnrNext hcov.all s (by omega) h2 with ⟨r, hno, hr⟩ | h
    · exact .inl ⟨r, hno, mem_append_right _ hr⟩
    · exact .inr h

theorem of_ends (h : LossInv es q) (he : Ends add q p') : LossInv es p' := by
  rcases he with rfl | rfl
  · exact h
  · exact h.of_process add

theorem of_same (h : LossInv es p) (hs : Same p p') : LossInv es p' := by
  unfold LossInv Passed RemWriter.Delivered at h ⊢
  rwa [hs.handed, hs.changes, hs.next]

theorem of_direct (h : LossInv es p) (hi : d.ignore = true → Told es d.writerSn)
    (hd : Direct add p d p') : LossInv es p' := by
  refine ⟨by rw [hd.changes]; exact h.1, fun s h1 h2 => ?_⟩
  have hnext := hd.next
  have hsnr := hd.snr
  rcases hd.handed with ⟨hig, hh⟩ | ⟨hno, hh⟩
  · by_cases hs : s = d.writerSn
    · exact .inr (.inl (hs ▸ hi hig))
    · exact (h.2 s h1 (by omega)).of_handed fun c hc => by rw [hh]; exact hc
  · by_cases hs : s = d.writerSn
    · exact .inl ⟨add s, hs ▸ hno, by rw [hh, hs]; simp⟩
    · exact (h.2 s h1 (by omega)).of_handed fun c hc => by rw [hh]; exact mem_append_left _ hc

theorem of_hbFirst (h : LossInv es p) (hup : ∀ s, s < firstSn → GivenUp es s)
    (hq : HbFirst (accountedOk es) add firstSn a b p q) : LossInv es q := by
  rcases hq.moved with ⟨_, hnext, hh, _, hcv⟩ | ⟨_, ha, hm, hnext, hnodes, hh⟩
  · refine ⟨⟨a, b, hcv⟩, fun s h1 h2 => ?_⟩
    by_cases hs : s < firstSn
    · exact .inr (.inr (hup s hs))
    · exact (h.2 s h1 (by omega)).of_handed fun c hc => by rw [hh]; exact hc
  · obtain ⟨a', hcv, _⟩ := drain_cover add a hm
    refine ⟨⟨a', b, by rw [hnodes]; exact hcv⟩, fun s h1 h2 => ?_⟩
    by_cases hs : s < firstSn
    · exact .inr (.inr (hup s hs))
    · rcases drain_accounted add a hm.all s (by omega) (by omega) with ⟨r, hno, hr⟩ | h
      · exact .inl ⟨r, hno, by rw [hh]; exact mem_append_right _ hr⟩
      · exact .inr h

theorem step (h : LossInv es p) (hk : KeepsCount p e) (hs : p.step e = some p') : LossInv (es ++ [e]) p' := by
  have hc := accountedOk_closed (es ++ [e])
  replace h := h.mono e
  obtain ⟨a, b, hcov⟩ := h.1
  cases e with
  | data d add =>
    have hi : d.ignore = true → Told (es ++ [.data d add]) d.writerSn := fun hig => .inl ⟨d, add, by simp, hig, rfl⟩
    rcases sfrRelData_spec hc hcov hi (widensOk_of_not_widens hk.1) hk.2 hs with hd | ⟨q, hq, he⟩
    · exact h.of_direct hi hd
    · exact (h.of_edited hq).of_ends he
  | gap gp add =>
    cases hs
    have hi : ∀ s, gp.Covers s → Told (es ++ [.gap gp add]) s := fun s hs => .inr ⟨gp, add, by simp, hs⟩
    obtain ⟨q, hq, he⟩ := sfrRelGap_spec add hc hcov hi fun _ _ _ => fits_of_forall fun _ _ => trivial
    exact (h.of_edited hq).of_ends he
  | heartbeat hp flags add =>
    cases hs
    have hup : ∀ s, s < hp.firstSn → GivenUp (es ++ [.heartbeat hp flags add]) s :=
      fun s hs => ⟨hp, flags, add, by simp, hs⟩
    rcases sfrRelHeartbeat_spec add hp flags hc hcov hup with ⟨_, hsame, _⟩ | ⟨_, q, hq, hsame, _, _⟩
    · exact h.of_same hsame
    · have hq' := h.of_hbFirst hup hq
      obtain ⟨a', b', hcov'⟩ := hq'.1
      exact (hq'.of_edited (heartbeatMissing_edited hc hcov' hp.lastSn)).of_same hsame
  | timeout =>
    cases hs
    exact h.of_same (timeout_same p)
  | unblock add =>
    cases hs
    obtain ⟨q, hsame, he⟩ := unblock_ends add p
    exact (h.of_same hsame).of_ends he

theorem start (cacheAcks : Bool) (delay : Nat) : LossInv [] (sfrRelStart cacheAcks delay) :=
  ⟨⟨1, 1, rfl⟩, fun s h1 h2 => absurd h2 (by show ¬ s < 1; omega)⟩

end LossInv

/-- **No silent loss.**  In every run in which no DATA widens a received head or frees its change, a number that
`rw_seqnr_next` has moved past was handed to the cache, or declared irrelevant, or given up by a HEARTBEAT. -/
theorem accounted_of_run {cacheAcks : Bool} {delay : Nat}
    (h : Run RemWriter.step (fun p e => e.Valid ∧ KeepsCount p e) (sfrRelStart cacheAcks delay) es p) :
    ∀ s, 1 ≤ s → s < p.seqnrNext → Accounted es p s := by
  have hinv := h.invariant LossInv (LossInv.start cacheAcks delay) fun _ _ _ _ hi hok hs => hi.step hok.2 hs
  exact fun s h1 h2 => (hinv.2 s h1 h2).accounted

def unusable : List ReaderEvent :=
  [.data ⟨3, false, some ⟨1, true, .cleanup⟩, true⟩ fun _ => .ok, .gap ⟨2, 3, []⟩ fun _ => .ok,
    .data ⟨1, true, none, true⟩ fun _ => .ok, .heartbeat ⟨4, 4, 1⟩ ⟨true, false⟩ fun _ => .ok]

theorem accounted_unusable :
    Accounted unusable ((exec RemWriter.step (fun p e => e.Valid ∧ KeepsCount p e) (sfrRelStart false 0) unusable).get
      (by decide)) 3 :=
  accounted_of_run (Run.of_isSome _) 3 (by decide) (by decide)

/-- **The condition is needed.**  A GAP over 3 and a fragmented sample 5 leave 3 received and 4 and 5 missing.  A DATA 1
makes the range of 3 grow over 2, and once 1 and 4 are there `rw_seqnr_next` moves to 5, past 2. -/
theorem lost_in_silence :
    ∃ es p, Run RemWriter.step (fun _ e => e.Valid) (sfrRelStart false 0) es p ∧ 2 < p.seqnrNext ∧
      ¬ Accounted es p 2 := by
  refine ⟨[.gap ⟨3, 4, []⟩ fun _ => .ok, .data ⟨5, false, some ⟨1, true, .cleanup⟩, true⟩ fun _ => .ok,
    .data ⟨1, false, none, true⟩ fun _ => .ok, .heartbeat ⟨1, 5, 1⟩ ⟨true, false⟩ fun _ => .ok,
    .data ⟨4, false, none, true⟩ fun _ => .ok], _, Run.of_isSome, by decide, ?_⟩
  rintro (⟨r, hr⟩ | (⟨d, add, hm, hig, hs⟩ | ⟨gp, add, hm, hc⟩) | ⟨hp, flags, add, hm, hlt⟩)
  · cases r <;> revert hr <;> decide
  · simp only [mem_cons, reduceCtorEq, ReaderEvent.data.injEq, not_mem_nil, false_or, or_false] at hm
    rcases hm with ⟨rfl, _⟩ | ⟨rfl, _⟩ | ⟨rfl, _⟩ <;> cases hig
  · simp only [mem_cons, reduceCtorEq, ReaderEvent.gap.injEq, not_mem_nil, or_false] at hm
    obtain ⟨rfl, _⟩ := hm
    revert hc
    simp [GapSMsg.Covers]
  · simp only [mem_cons, reduceCtorEq, ReaderEvent.heartbeat.injEq, not_mem_nil, false_or, or_false] at hm
    obtain ⟨rfl, _⟩ := hm
    exact absurd hlt (by decide)

end Qeo.Rtps
