import QeoCore.Sfrr
import QeoCore.Tiles
/-!
# SfrrCover — the edits of the reader's change list

Whatever a result wants to know of the nodes is a predicate `ok` on a node's state, fragments flag and entry, and
`Closed ok` says that the edits of rtps_sfrr.c keep it.  Every edit keeps the list a tiling of `ok` nodes.
-/
namespace Qeo.Rtps

open RemWriter Cclist

open Tiles

/-- What is known of a node: a predicate on its state, on whether it has a fragmentation context, and on its entry. -/
abbrev NodeOk := ChangeState → Bool → Entry → Prop

def Ccref.Ok (ok : NodeOk) (rp : RwRef) : Prop := ok rp.state rp.fragments rp.u

open Ccref

/-- The nodes cover `[a, b)`, end to end, and each is `ok`. -/
abbrev Cover (ok : NodeOk) (a : Int) (nodes : List RwRef) (b : Int) : Prop :=
  Tiled first last (Ok ok) a nodes b

/-- `ok` survives the edits of the change list.  `irr` are the numbers declared irrelevant, `lost` those below the
writer's first; `fits a b` is asked before a range that starts at `a` is cut off at `b`. -/
structure Closed (ok : NodeOk) (fits : Int → Int → Prop) (irr lost : Int → Prop) : Prop where
  fits_of_le {a b} : a ≤ b → fits a b
  /-- No range is inside out, unless nothing is asked before a cut. -/
  upright : (∀ {st f a b}, ok st f (.range a b) → a ≤ b + 1) ∨ ∀ a b, fits a b
  /-- Only received samples have fragments. -/
  fragmented {st e} : ok st true e → st = .received ∧ ∃ s, e = .sample s
  sample (s f) : ok .received f (.sample s)
  missing {a b} : a ≤ b → ok .missing false (.range a b)
  irrelevant {a b} : a ≤ b → (∀ s, a ≤ s → s ≤ b → irr s) → ok .received false (.range a b)
  growMissing {a b a' b'} : ok .missing false (.range a b) → a' ≤ a → b ≤ b' → ok .missing false (.range a' b')
  growReceived {a b a' b'} : ok .received false (.range a b) → a' ≤ a → b ≤ b' →
    (∀ s, a' ≤ s → s < a → irr s) → (∀ s, b < s → s ≤ b' → irr s) → ok .received false (.range a' b')
  /-- A part of a range, its ends the right way round. -/
  part {st a b a' b'} : ok st false (.range a b) → a ≤ a' → a' ≤ b' → b' ≤ b → ok st false (.range a' b')
  /-- A range the front of which is declared irrelevant. -/
  front {st a b b'} : st ≠ .received → ok st false (.range a b) → b' = b ∨ b' < b ∧ fits a b' →
    (∀ s, a ≤ s → s ≤ b' → irr s) → ok .received false (.range a b')
  /-- What is left of it. -/
  back {st a b b'} : st ≠ .received → ok st false (.range a b) → b' < b → ok st false (.range (b' + 1) b)
  loseSample {st f s} : ok st f (.sample s) → irr s ∨ lost s → ok .lost false (.sample s)
  loseRange {st a b} : ok st false (.range a b) → lost b → ok .lost false (.range a b)

/-- The loop of `sfr_rel_gap_range` cuts no range at `last` that does not `fit`.  Only a gap that starts below the head
can do so: each sample it passes moves `first` on by one, whatever the sample's own number is. -/
def Fits (fits : Int → Int → Prop) (last : Int) : Int → List RwRef → Prop
  | _, [] => True
  | first, rp :: rest =>
    match rp.u with
    | .sample s => s ≤ first ∨ last < first + 1 ∨ Fits fits last (first + 1) rest
    | .range a b => a ≤ first ∨ rp.state = .received ∨ b ≤ last ∨ fits a last

instance decidableFits {fits : Int → Int → Prop} [∀ a b, Decidable (fits a b)] (last : Int) :
    ∀ first nodes, Decidable (Fits fits last first nodes)
  | _, [] => isTrue trivial
  | first, rp :: rest =>
    have : Decidable (Fits fits last (first + 1) rest) := decidableFits last (first + 1) rest
    match h : rp.u with
    | .sample s =>
      decidable_of_iff (s ≤ first ∨ last < first + 1 ∨ Fits fits last (first + 1) rest) (by simp only [Fits, h])
    | .range a b =>
      decidable_of_iff (a ≤ first ∨ rp.state = .received ∨ b ≤ last ∨ fits a last) (by simp only [Fits, h])

section

variable {ok : NodeOk} {fits : Int → Int → Prop} {irr lost : Int → Prop} {a b first last snr : Int} {ignore : Bool}
  {rp : RwRef} {list : Cclist Unit} {nodes : List RwRef}

section
variable (x y : Int) (st : ChangeState)

@[simp] theorem gap_first : (gap () x y st).first = x := rfl
@[simp] theorem gap_last : (gap () x y st).last = y := rfl
@[simp] theorem gap_ok :
    (gap () x y st).Ok ok ↔ ok st false (.range x y) := Iff.rfl

end

theorem ok_range (hc : Closed ok fits irr lost) (h : rp.Ok ok) (hu : rp.u = .range x y) :
    ok rp.state false (.range x y) ∧ rp.fragments = false := by
  unfold Ok at h
  rw [hu] at h
  cases hf : rp.fragments with
  | false => exact ⟨hf ▸ h, rfl⟩
  | true =>
    rw [hf] at h
    obtain ⟨_, _, he⟩ := hc.fragmented h
    cases he

theorem Closed.irrelevantOne (hc : Closed ok fits irr lost) (hs : irr s) : ok .received false (.range s s) :=
  hc.irrelevant (Int.le_refl s) fun t h1 h2 => by
    obtain rfl : t = s := by omega
    exact hs

theorem Cover.snoc (h : Cover ok a nodes b) (hx : x.first = b) (hok : x.Ok ok) :
    Cover ok a (nodes ++ [x]) (x.last + 1) := by
  subst hx
  exact tiled_concat.2 ⟨h, hok, rfl⟩

theorem Cover.cons (h : Cover ok a nodes b) {x : RwRef} (hx : x.last + 1 = a) (hok : x.Ok ok) :
    Cover ok x.first (x :: nodes) b := by
  subst hx
  exact tiled_cons.2 ⟨rfl, hok, h⟩

/-! ## `ccref_add_gap` -/

section
variable (hc : Closed ok fits irr lost) (h : Cover ok a list.nodes b)
include hc h

theorem addGapTail_cover
    (hnew : ok st false (.range b last)) (hgrow : ∀ c, ok st false (.range c (b - 1)) → ok st false (.range c last)) :
    Cover ok a (list.addGapTail () b last st).nodes (last + 1) := by
  rcases list.addGapTail_cases () b last st with ⟨init, x, c, d, hn, hu, rfl, he⟩ | he
  · rw [hn] at h
    obtain ⟨hi, hx, hb⟩ := tiled_concat.1 h
    obtain ⟨hok, hf⟩ := ok_range hc hx hu
    rw [last_of_range hu] at hb
    rw [first_of_range hu] at hi
    obtain rfl : d = b - 1 := by omega
    rw [he]
    refine tiled_concat.2 ⟨hi, ?_, rfl⟩
    simp only [Ok, hf]
    exact hgrow c hok
  · rw [he]
    exact h.snoc rfl hnew

theorem addGapHead_cover
    (hnew : ok st false (.range first (a - 1))) (hgrow : ∀ d, ok st false (.range a d) → ok st false (.range first d)) :
    Cover ok first (list.addGapHead () first (a - 1) st).nodes b := by
  rcases list.addGapHead_cases () first (a - 1) st with ⟨x, rest, c, d, hn, hu, rfl, he⟩ | he
  · rw [hn] at h
    obtain ⟨ha, hx, ht⟩ := tiled_cons.1 h
    obtain ⟨hok, hf⟩ := ok_range hc hx hu
    rw [last_of_range hu] at ht
    rw [first_of_range hu] at ha
    subst ha
    rw [he]
    refine tiled_cons.2 ⟨rfl, ?_, ht⟩
    simp only [Ok, hf]
    exact hgrow d hok
  · rw [he]
    exact h.cons (by simp) hnew

theorem addGapTail_missing (hl : b ≤ last) : Cover ok a (list.addGapTail () b last .missing).nodes (last + 1) :=
  addGapTail_cover hc h (hc.missing hl) fun c hok => hc.growMissing hok (Int.le_refl c) (by omega)

theorem addGapTail_received (hl : b ≤ last)
    (hi : ∀ s, b ≤ s → s ≤ last → irr s) : Cover ok a (list.addGapTail () b last .received).nodes (last + 1) :=
  addGapTail_cover hc h (hc.irrelevant hl hi) fun c hok =>
    hc.growReceived hok (Int.le_refl c) (by omega) (fun s h1 h2 => by omega) (fun s h1 h2 => hi s (by omega) h2)

theorem addGapHead_missing (hl : first < a) : Cover ok first (list.addGapHead () first (a - 1) .missing).nodes b :=
  addGapHead_cover hc h (hc.missing (by omega)) fun d hok => hc.growMissing hok (by omega) (Int.le_refl d)

theorem addGapHead_received (hl : first < a)
    (hi : ∀ s, first ≤ s → s < a → irr s) :
    Cover ok first (list.addGapHead () first (a - 1) .received).nodes b :=
  addGapHead_cover hc h (hc.irrelevant (by omega) fun s h1 h2 => hi s h1 (by omega)) fun d hok =>
    hc.growReceived hok (by omega) (Int.le_refl d) (fun s h1 h2 => hi s h1 h2) (fun s h1 h2 => by omega)

end

/-! ## The ends of the list

The code asks by itself whether the missing range at an end may grow, before it calls `ccref_add_gap`, which asks
again: at the tail, and where a HEARTBEAT edits the head, this is `ccref_add_gap`. -/

theorem missingTail_eq (hn : list.nodes ≠ []) (first last : Int) :
    missingTail list first last = list.addGapTail () first last .missing := by
  unfold missingTail ccrefAddGap addGapTail
  cases h : list.nodes.getLast? with
  | none => exact absurd (List.getLast?_eq_none_iff.1 h) hn
  | some tail =>
    simp only [if_true]
    split <;> rfl

theorem missingHead_eq (hn : list.nodes ≠ []) (first last : Int) :
    missingHead list first last (headMissing list) = list.addGapHead () first last .missing := by
  unfold missingHead headMissing ccrefAddGap addGapHead
  cases h : list.nodes with
  | nil => exact absurd h hn
  | cons head rest => simp

theorem Cover.tail_last (h : Cover ok a nodes b) (ht : nodes.getLast? = some tail) : tail.last + 1 = b := by
  obtain ⟨init, rfl⟩ := List.getLast?_eq_some_iff.1 ht
  exact (tiled_concat.1 h).2.2

section
variable (hc : Closed ok fits irr lost) (h : Cover ok a list.nodes b)
include hc h

section
variable (hn : list.nodes ≠ [])
include hn

theorem missingTail_cover
    (hl : b ≤ last) : Cover ok a (missingTail list b last).nodes (last + 1) := by
  rw [missingTail_eq hn]
  exact addGapTail_missing hc h hl

theorem missingHead_cover
    (hl : first < a)
    (hw : g = true → ∀ head rest d, list.nodes = head :: rest → head.u = .range a d →
      ok head.state false (.range a d) → ok head.state false (.range first d)) :
    Cover ok first (missingHead list first (a - 1) g).nodes b := by
  unfold missingHead
  split
  · rename_i head rest hnodes
    split
    · rename_i hg
      rw [hnodes] at h
      obtain ⟨c, d, hu⟩ := exists_range hg.1
      obtain ⟨ha, hx, ht⟩ := tiled_cons.1 h
      obtain ⟨hok, hf⟩ := ok_range hc hx hu
      rw [last_of_range hu] at ht
      rw [first_of_range hu] at ha
      subst ha
      refine tiled_cons.2 ⟨rfl, ?_, ?_⟩
      · rw [setFirst_of_range hu]
        simp only [Ok, hf]
        exact hw hg.2 head rest d hnodes hu hok
      · rw [setFirst_of_range hu]
        exact ht
    · exact addGapHead_missing hc h hl
  · exact absurd ‹_› hn

theorem dataAfter_cover
    (hs : b ≤ snr) (hi : ignore = true → irr snr) :
    Cover ok a (dataAfter list (b - 1) snr ignore).nodes (snr + 1) := by
  have hgap : Cover ok a (if b - 1 + 1 = snr then list
      else missingTail list (b - 1 + 1) (snr - 1)).nodes snr := by
    rw [Int.sub_add_cancel]
    split
    · exact ‹b = snr› ▸ h
    · have := missingTail_cover hc h hn (show b ≤ snr - 1 by omega)
      rwa [Int.sub_add_cancel] at this
  unfold dataAfter
  dsimp only
  split
  · exact addGapTail_received hc hgap (Int.le_refl snr) fun s h1 h2 => by
      obtain rfl : s = snr := by omega
      exact hi ‹_›
  · exact hgap.snoc (x := received snr) rfl (hc.sample snr false)

theorem dataBefore_cover
    (hs : snr < a) (hi : ignore = true → irr snr)
    (hw : snr + 1 < a → tailMissing list = true → ∀ head rest d, list.nodes = head :: rest →
      head.u = .range a d → ok head.state false (.range a d) → ok head.state false (.range (snr + 1) d)) :
    Cover ok snr (dataBefore list a snr ignore).nodes b := by
  have hgap : Cover ok (snr + 1) (if a - 1 = snr then list
      else missingHead list (snr + 1) (a - 1) (tailMissing list)).nodes b := by
    split
    · obtain rfl : a = snr + 1 := by omega
      exact h
    · exact missingHead_cover hc h hn (by omega) (hw (by omega))
  unfold dataBefore
  dsimp only
  split
  · have := addGapHead_received hc hgap (show snr < snr + 1 by omega) fun s h1 h2 => by
      obtain rfl : s = snr := by omega
      exact hi ‹_›
    rwa [show snr + 1 - 1 = snr by omega] at this
  · exact hgap.cons (x := received snr) rfl (hc.sample snr false)

theorem missingBefore_cover
    (firstSn : Int) : Cover ok (min a firstSn) (missingBefore list firstSn).nodes b := by
  unfold missingBefore
  split
  · exact absurd ‹_› hn
  rename_i head rest hnodes
  have ha : head.first = a := by rw [hnodes] at h; exact h.1
  rw [ha, missingHead_eq hn]
  split
  · rw [show min a firstSn = firstSn by omega]
    exact addGapHead_missing hc h ‹_›
  · rwa [show min a firstSn = a by omega]

end

theorem missingAfter_cover (lastSn : Int) : ∃ b', Cover ok a (missingAfter list lastSn).nodes b' := by
  unfold missingAfter
  split
  · exact ⟨b, h⟩
  rename_i tail ht
  have hn : list.nodes ≠ [] := fun h0 => by rw [h0] at ht; cases ht
  rw [show tail.last + 1 = b from h.tail_last ht]
  split
  · have := h.tail_last ht
    exact ⟨lastSn + 1, missingTail_cover hc h hn (by omega)⟩
  · exact ⟨b, h⟩

end

/-! ## A number inside the list -/

theorem findSnr_some : ∀ {nodes pre post : List RwRef} {rp : RwRef},
    findSnr snr nodes = some (pre, rp, post) → nodes = pre ++ rp :: post ∧ rp.first ≤ snr ∧ snr ≤ rp.last
  | [], _, _, _, h => by cases h
  | x :: rest, pre, post, rp, h => by
    unfold findSnr at h
    split at h
    · rename_i hx
      cases h
      exact ⟨rfl, hx⟩
    obtain ⟨⟨pre', rp', post'⟩, hf, he⟩ := Option.map_eq_some_iff.1 h
    cases he
    obtain ⟨hn, hb⟩ := findSnr_some hf
    exact ⟨by rw [hn]; rfl, hb⟩

theorem splitGap_cover (hc : Closed ok fits irr lost)
    (hb : rp.first ≤ snr ∧ snr ≤ rp.last) (hi : ignore = true → irr snr)
    (h : splitGap rp snr ignore = (before, node, after)) :
    Cover ok rp.first before snr ∧ node.state = .received ∧ node.first = snr ∧ node.last = snr ∧ node.Ok ok ∧
      Cover ok (snr + 1) after (rp.last + 1) := by
  obtain ⟨rfl, rfl, rfl⟩ := h
  have hbefore : Cover ok rp.first (if rp.first < snr then [.gap () rp.first (snr - 1) .missing] else []) snr := by
    split
    · exact ⟨rfl, hc.missing (by omega), by simp⟩
    · simp only [tiled_nil]
      omega
  have hafter : Cover ok (snr + 1) (if snr < rp.last then [.gap () (snr + 1) rp.last .missing] else [])
    (rp.last + 1) := by
    split
    · exact ⟨rfl, hc.missing (by omega), rfl⟩
    · simp only [tiled_nil]
      omega
  refine ⟨hbefore, rfl, ?_, ?_, ?_, hafter⟩
  · cases ignore <;> rfl
  · cases ignore <;> rfl
  · cases ignore with
    | false => exact hc.sample snr false
    | true => exact hc.irrelevantOne (hi rfl)

/-! ## Fragments -/

theorem markFragment_ok (hc : Closed ok fits irr lost) (hu : refp.u = .sample snr)
    (hst : refp.state = .received) (r : Reassembly) :
    (RemWriter.markFragment refp snr r).1.first = snr ∧ (RemWriter.markFragment refp snr r).1.last = snr ∧
      (RemWriter.markFragment refp snr r).1.Ok ok := by
  cases r with
  | cleanup => exact ⟨rfl, rfl, hc.missing (Int.le_refl snr)⟩
  | _ =>
    refine ⟨first_of_sample hu, last_of_sample hu, ?_⟩
    simp only [RemWriter.markFragment, Ok, hst, hu]
    exact hc.sample snr _

theorem sfrFragmentNode_ok (hc : Closed ok fits irr lost) (hok : refp.Ok ok) (hst : refp.state = .received)
    (hi : ignore = true → ∀ s, refp.u = .sample s → irr s)
    (hctx : refp.relevant = true → refp.fragments = false → ∀ f ∈ fragp, f.ctx = true)
    (h : sfrFragmentNode refp fragp ignore = some (refp', e)) :
    refp'.first = refp.first ∧ refp'.last = refp.last ∧ refp'.Ok ok := by
  unfold sfrFragmentNode at h
  split at h
  · cases h
  split at h
  · cases h
    refine ⟨rfl, rfl, ?_⟩
    simp only [Ok, ← hst]
    exact hok
  rename_i snr hu
  rw [first_of_sample hu, last_of_sample hu]
  split at h
  · split at h
    · rename_i hig
      cases h
      exact ⟨rfl, rfl, hc.irrelevantOne (hi hig.2 snr hu)⟩
    · obtain rfl := congrArg Prod.fst (Option.some.inj h)
      exact markFragment_ok hc hu hst _
  · split at h
    · obtain rfl := congrArg Prod.fst (Option.some.inj h)
      exact markFragment_ok hc hu hst _
    · rename_i hfr hno
      exact absurd (hctx (relevant_of_sample hu) (by simpa using hfr) _ rfl) hno

/-! ## GAP -/

theorem sfrRelGapSet_cover (hc : Closed ok fits irr lost) (hok : rp.Ok ok)
    (hu : rp.u = .range x y) (hst : rp.state ≠ .received) (hy : s2 ≤ y)
    (hfit : x ≤ first ∧ first ≤ s2 ∨ first ≤ x ∧ (s2 = y ∨ fits x s2)) (hi : ∀ s, first ≤ s → s ≤ s2 → irr s) :
    Cover ok x (sfrRelGapSet rp x y first s2) (y + 1) := by
  obtain ⟨hr, hf⟩ := ok_range hc hok hu
  have hback : Cover ok (s2 + 1) (if s2 < y then [.gap () (s2 + 1) y rp.state] else []) (y + 1) := by
    split
    · exact ⟨rfl, hc.back hst hr ‹_›, rfl⟩
    · simp only [tiled_nil]
      omega
  refine tiled_append.2 ⟨s2 + 1, ?_, hback⟩
  split
  · refine ⟨rfl, ?_, by simp [last], hc.irrelevant (by omega) hi, rfl⟩
    simp only [Ok, hf]
    exact hc.part hr (Int.le_refl x) (by omega) (by omega)
  refine ⟨rfl, ?_, rfl⟩
  simp only [Ok, hf]
  refine hc.front hst hr ?_ fun s h1 h2 => hi s (by omega) h2
  rcases hfit with h | ⟨_, h⟩
  · by_cases he : s2 = y
    · exact .inl he
    · exact .inr ⟨by omega, hc.fits_of_le (by omega)⟩
  rcases h with h | h
  · exact .inl h
  · by_cases he : s2 = y
    · exact .inl he
    · exact .inr ⟨by omega, h⟩

theorem gapSample_ok (hc : Closed ok fits irr lost) (hok : rp.Ok ok) (hu : rp.u = .sample s) (hi : first = s → irr s) :
    (gapSample rp s first).first = s ∧ (gapSample rp s first).last = s ∧
      (gapSample rp s first).Ok ok := by
  unfold gapSample
  split
  · rename_i hfr
    simp only [Bool.and_eq_true, beq_iff_eq] at hfr
    refine ⟨first_of_sample hu, last_of_sample hu, ?_⟩
    simp only [Ok, hu] at hok ⊢
    exact hc.loseSample hok (.inl (hi hfr.2))
  · exact ⟨first_of_sample hu, last_of_sample hu, hok⟩

theorem gapNodes_cover (hc : Closed ok fits irr lost) (hok : rp.Ok ok)
    (hu : rp.u = .range x y) (hfy : first ≤ y) (hfl : first ≤ last)
    (hfit : x ≤ first ∨ rp.state = .received ∨ y ≤ last ∨ fits x last) (hi : ∀ s, first ≤ s → s ≤ last → irr s) :
    Cover ok x (gapNodes rp x y first (min y last)) (y + 1) := by
  unfold gapNodes
  split
  · rename_i hst
    refine sfrRelGapSet_cover hc hok hu hst (by omega) ?_ fun s h1 h2 => hi s h1 (by omega)
    rcases hfit with h | h | h | h
    · exact .inl ⟨h, by omega⟩
    · exact absurd h hst
    · by_cases hx : x ≤ first
      · exact .inl ⟨hx, by omega⟩
      · exact .inr ⟨by omega, .inl (by omega)⟩
    by_cases hx : x ≤ first
    · exact .inl ⟨hx, by omega⟩
    by_cases hy : y ≤ last
    · exact .inr ⟨by omega, .inl (by omega)⟩
    · rw [show min y last = last by omega]
      exact .inr ⟨by omega, .inr h⟩
  · exact ⟨first_of_range hu, hok, by rw [last_of_range hu]; rfl⟩

/-- The walk over changes that overlap with a gap, by induction on the list: once `first` has caught up with the node
the walk is at (`a ≤ first`), it stays level with it. -/
theorem gapOverlap_cover (hc : Closed ok fits irr lost) : ∀ {nodes : List RwRef} {a first : Int},
    Cover ok a nodes b → first ≤ last → a ≤ first ∨ Fits fits last first nodes →
    (∀ s, first ≤ s → s ≤ last → irr s) → Cover ok a (gapOverlap last first nodes).1 b
  | [], _, _, h, _, _, _ => h
  | rp :: rest, a, first, ⟨ha, hok, ht⟩, hfl, hfit, hi => by
    obtain ⟨parts, first', hstep, he⟩ := gapOverlap_cons hfl rp rest
    obtain ⟨hparts, hf, hnext⟩ : Cover ok a parts (rp.last + 1) ∧ first ≤ first' ∧
        (first' ≤ last → rp.last + 1 ≤ first' ∨ Fits fits last first' rest) := by
      cases hstep with
      | @sample s hu hs =>
        obtain ⟨hf, hl, hn⟩ := gapSample_ok hc hok hu fun he : first = s => hi s (by omega) (by omega)
        rw [first_of_sample hu] at ha
        rw [last_of_sample hu]
        simp only [Fits, hu] at hfit
        refine ⟨⟨hf.trans ha, hn, by rw [hl]; rfl⟩, by omega, fun hle => ?_⟩
        rcases hfit with h | h | h | h
        · exact .inl (by omega)
        · exact .inl (by omega)
        · omega
        · exact .inr h
      | passed hlt => exact ⟨⟨ha, hok, rfl⟩, Int.le_refl _, fun _ => .inl hlt⟩
      | @range x y hu hb =>
        obtain rfl : x = a := by rw [← ha, first_of_range hu]
        simp only [Fits, hu] at hfit
        have hfit' : x ≤ first ∨ rp.state = .received ∨ y ≤ last ∨ fits x last := by tauto
        rw [last_of_range hu]
        exact ⟨gapNodes_cover hc hok hu hb hfl hfit' hi, by omega, fun _ => .inl (by omega)⟩
    rw [he]
    split
    · exact hparts.append ht
    · exact hparts.append (gapOverlap_cover hc ht (by omega) (hnext (by omega)) fun s h1 h2 => hi s (by omega) h2)

theorem gapNodes_length_pos (rp : RwRef) (x y first last : Int) :
    1 ≤ (gapNodes rp x y first last).length := by
  unfold gapNodes sfrRelGapSet
  split
  · split <;> simp
  · simp

theorem gapOverlap_length : ∀ (nodes : List RwRef) {first : Int}, first ≤ last →
    (gapOverlap last first nodes).1.length = nodes.length + (gapOverlap last first nodes).2.1
  | [], _, _ => rfl
  | rp :: rest, first, hle => by
    obtain ⟨parts, first', hstep, he⟩ := gapOverlap_cons hle rp rest
    have hpos : 1 ≤ parts.length := by
      cases hstep with
      | range => exact gapNodes_length_pos ..
      | _ => exact Nat.le_refl 1
    rw [he]
    split
    · simp only [List.length_append, List.length_cons]
      omega
    · simp only [List.length_append, List.length_cons, gapOverlap_length rest (show first' ≤ last by omega)]
      omega

/-! ## HEARTBEAT -/

theorem markLost_cover (hc : Closed ok fits irr lost) (hlost : ∀ s, s < firstSn → lost s) :
    ∀ {nodes : List RwRef} {a : Int}, Cover ok a nodes b → Cover ok a (markLost firstSn a nodes).1 b
  | [], _, h => h
  | rp :: rest, a, ⟨ha, hok, ht⟩ => by
    unfold markLost
    split
    · rename_i hlt
      split
      · rename_i s hu
        obtain rfl : s = a := by rw [← ha, first_of_sample hu]
        rw [last_of_sample hu] at ht
        have ih := markLost_cover hc hlost ht
        split
        · refine ⟨ha, ?_, ?_⟩
          · simp only [Ok, hu] at hok ⊢
            exact hc.loseSample hok (.inr (hlost s hlt))
          · simpa only [last, hu] using ih
        · exact ⟨ha, hok, by rwa [last_of_sample hu]⟩
      rename_i x y hu
      obtain rfl : x = a := by rw [← ha, first_of_range hu]
      rw [last_of_range hu] at ht
      obtain ⟨hr, hf⟩ := ok_range hc hok hu
      simp only
      split
      · refine ⟨rfl, ?_, by simp [last], hc.part hr (by omega) (by omega) (Int.le_refl y), ht⟩
        have hp := hc.part hr (Int.le_refl x) (show x ≤ firstSn - 1 by omega) (by omega)
        simp only [Ok, hf]
        split
        · exact hc.loseRange hp (hlost _ (by omega))
        · exact hp
      · refine ⟨ha, ?_, ?_⟩
        · simp only [Ok, hf, hu]
          split
          · exact hc.loseRange hr (hlost _ (by omega))
          · exact hr
        · simpa only [last, hu] using markLost_cover hc hlost ht
    · exact ⟨ha, hok, ht⟩

theorem markLost_length : ∀ (nodes : List RwRef) (snr : Int),
    (markLost firstSn snr nodes).1.length = nodes.length + (markLost firstSn snr nodes).2
  | [], _ => rfl
  | rp :: rest, snr => by
    unfold markLost
    split
    · split
      · simp only [List.length_cons, markLost_length rest]
        omega
      simp only
      split
      · simp
      · simp only [List.length_cons, markLost_length rest]
        omega
    · rfl

end

end Qeo.Rtps
