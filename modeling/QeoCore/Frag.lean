import Mathlib.Order.Interval.Finset.Nat
/-!
# Frag — reassembly of fragmented samples (rtps_frag.c, rtps_sfrr.c)

The fragments of a sample are copied into one buffer, and a bitmap says which have come.  There is no result where
`mark_fragment` uses an index or an address that is not the context's, reads outside the payload, or does not end.
-/
namespace Qeo.Rtps

variable {more : List (List RxByte)}

abbrev RxByte := Option UInt8

structure FragInfo where
  total : Nat
  firstNa : Nat
  numNa : Nat
  bitmap : Nat → Bool
  length : Nat
  data : Nat → UInt8

structure FragSMsg where
  fragStart : Nat
  numFragments : Nat
  fragSize : Nat
  sampleSize : Nat
  cur : List RxByte
  more : List (List RxByte)

def FragSMsg.bytes (m : FragSMsg) : List RxByte := m.cur ++ m.more.flatten

def rfraginfoCreate (stale : Nat → UInt8) (m : FragSMsg) (maxFrags : Nat) : FragInfo :=
  ⟨maxFrags, 0, maxFrags, fun _ => false, m.sampleSize, stale⟩

def nextClear (bitmap : Nat → Bool) : Nat → Nat → Option Nat
  | 0, _ => none
  | fuel + 1, i => if bitmap i then nextClear bitmap fuel (i + 1) else some i

def FragInfo.mark (fip : FragInfo) (f : Nat) : Option FragInfo :=
  let bitmap := fun i => i == f || fip.bitmap i
  let fip := { fip with bitmap, numNa := fip.numNa - 1 }
  if fip.numNa ≠ 0 ∧ fip.firstNa = f then
    (nextClear bitmap (fip.total - (f + 1)) (f + 1)).map fun firstNa => { fip with firstNa }
  else some fip

def put (data : Nat → UInt8) (dp : Nat) (src : List RxByte) : Nat → UInt8 :=
  fun i => if dp ≤ i then ((src[i - dp]?).join).getD (data i) else data i

/-- The loop `while (left)`, with what is left of the source.  It does not end where no byte is left in a buffer that
has none behind it. -/
def copyLoop (length : Nat) (copy : Bool) (more : List (List RxByte)) (cur : List RxByte) (left dleft dp : Nat)
    (data : Nat → UInt8) : Option (List RxByte × List (List RxByte) × (Nat → UInt8)) :=
  let n := min (min cur.length dleft) left
  if copy ∧ (none ∈ cur.take n ∨ n ≠ 0 ∧ length < dp + n) then none
  else
    let data := if copy then put data dp (cur.take n) else data
    if left ≤ n then some (cur.drop n, more, data)
    else if n < cur.length then none
    else match more with
      | [] => none
      | next :: more => copyLoop length copy more next (left - n) (dleft - n) (dp + n) data

def markLoop (fsize : Nat) : Nat → Nat → List RxByte → List (List RxByte) → Nat → Nat → FragInfo → Option FragInfo
  | 0, _, _, _, _, _, fip => some fip
  | k + 1, f, cur, more, dleft, dp, fip =>
    let left := min fsize dleft
    if fip.total ≤ f then none
    else
      (if fip.bitmap f then some fip else fip.mark f).bind fun marked =>
        (copyLoop fip.length (!fip.bitmap f) more cur left dleft dp fip.data).bind fun r =>
          markLoop fsize k (f + 1) r.1 r.2.1 (dleft - left) (dp + left) { marked with data := r.2.2 }

def FragSMsg.ofs (m : FragSMsg) : Nat := (m.fragStart - 1) * m.fragSize % 2 ^ 32

def markFragment (fip : FragInfo) (m : FragSMsg) : Option FragInfo :=
  markLoop m.fragSize m.numFragments (m.fragStart - 1) m.cur m.more ((fip.length + 2 ^ 32 - m.ofs) % 2 ^ 32) m.ofs fip

/-! ## The copy -/

theorem put_append (data : Nat → UInt8) (dp : Nat) (xs ys : List RxByte) :
    put (put data dp xs) (dp + xs.length) ys = put data dp (xs ++ ys) := by
  funext i
  simp only [put]
  by_cases h1 : dp + xs.length ≤ i
  · rw [if_pos h1, if_pos (by omega), if_pos (by omega), List.getElem?_append_right (by omega),
      List.getElem?_eq_none (show xs.length ≤ i - dp by omega), show i - dp - xs.length = i - (dp + xs.length) by omega]
    rfl
  rw [if_neg h1]
  by_cases h2 : dp ≤ i
  · rw [if_pos h2, if_pos h2, List.getElem?_append_left (by omega)]
  · rw [if_neg h2, if_neg h2]

def CopyFits (length : Nat) (copy : Bool) (src : List RxByte) (left dp : Nat) : Prop :=
  left ≤ src.length ∧ (copy = true → none ∉ src.take left ∧ (left = 0 ∨ dp + left ≤ length))

theorem copyLoop_within (data : Nat → UInt8) (hd : left ≤ dleft) (hl : left ≤ cur.length) :
    copyLoop length copy more cur left dleft dp data =
      if copy ∧ (none ∈ cur.take left ∨ left ≠ 0 ∧ length < dp + left) then none
      else some (cur.drop left, more, if copy then put data dp (cur.take left) else data) := by
  unfold copyLoop
  rw [show min (min cur.length dleft) left = left by omega]
  simp

theorem copyLoop_beyond {cur : List RxByte} (data : Nat → UInt8) (hd : left ≤ dleft) (hl : cur.length < left) :
    copyLoop length copy more cur left dleft dp data =
      if copy ∧ (none ∈ cur ∨ cur.length ≠ 0 ∧ length < dp + cur.length) then none
      else match more with
        | [] => none
        | next :: more =>
          copyLoop length copy more next (left - cur.length) (dleft - cur.length) (dp + cur.length)
            (if copy then put data dp cur else data) := by
  conv_lhs => unfold copyLoop
  rw [show min (min cur.length dleft) left = cur.length by omega]
  simp [List.take_length, show ¬ left ≤ cur.length by omega]

/-- **The copy takes the next `left` bytes, wherever the buffers end, or has no result.** -/
theorem copyLoop_spec (length : Nat) (copy : Bool) : ∀ (more : List (List RxByte)) (cur : List RxByte)
    (left dleft dp : Nat) (data : Nat → UInt8), left ≤ dleft →
    (CopyFits length copy (cur ++ more.flatten) left dp → ∃ cur' more',
      copyLoop length copy more cur left dleft dp data =
        some (cur', more', if copy then put data dp ((cur ++ more.flatten).take left) else data) ∧
      cur' ++ more'.flatten = (cur ++ more.flatten).drop left) ∧
    (¬ CopyFits length copy (cur ++ more.flatten) left dp →
      copyLoop length copy more cur left dleft dp data = none) := by
  intro more cur left dleft dp data hd
  by_cases hl : left ≤ cur.length
  · have htake : (cur ++ more.flatten).take left = cur.take left := List.take_append_of_le_length hl
    have hfit : CopyFits length copy (cur ++ more.flatten) left dp ↔
        ¬ (copy = true ∧ (none ∈ cur.take left ∨ left ≠ 0 ∧ length < dp + left)) := by
      rw [CopyFits, htake, List.length_append]
      constructor
      · rintro ⟨_, h⟩ ⟨hc, hbad⟩
        have := h hc
        rcases hbad with hbad | hbad
        · exact this.1 hbad
        · omega
      · intro h
        refine ⟨by omega, fun hc => ⟨fun hm => h ⟨hc, .inl hm⟩, ?_⟩⟩
        by_contra hbad
        exact h ⟨hc, .inr (by omega)⟩
    rw [copyLoop_within data hd hl, htake, hfit]
    refine ⟨fun h => ⟨_, _, if_neg h, (List.drop_append_of_le_length hl).symm⟩, fun h => if_pos (not_not.1 h)⟩
  -- The buffer is used up, and the copy goes on in the next one.
  have hlt : cur.length < left := by omega
  have htake : ∀ rest : List RxByte, (cur ++ rest).take left = cur ++ rest.take (left - cur.length) := by
    intro rest
    rw [List.take_append, List.take_of_length_le (by omega)]
  have hdrop : ∀ rest : List RxByte, (cur ++ rest).drop left = rest.drop (left - cur.length) := by
    intro rest
    rw [List.drop_append, List.drop_of_length_le (by omega), List.nil_append]
  rw [copyLoop_beyond data hd hlt]
  by_cases hbad : copy = true ∧ (none ∈ cur ∨ cur.length ≠ 0 ∧ length < dp + cur.length)
  · rw [if_pos hbad]
    refine ⟨fun h => absurd (h.2 hbad.1) ?_, fun _ => rfl⟩
    rw [htake, List.mem_append]
    rcases hbad.2 with hm | hm
    · exact fun hc => hc.1 (.inl hm)
    · omega
  rw [if_neg hbad]
  cases more with
  | nil =>
    refine ⟨fun h => ?_, fun _ => rfl⟩
    have := h.1
    simp only [List.flatten_nil, List.append_nil] at this
    omega
  | cons next more =>
    obtain ⟨hsome, hnone⟩ := copyLoop_spec length copy more next (left - cur.length) (dleft - cur.length)
      (dp + cur.length) (if copy then put data dp cur else data) (by omega)
    have hfit : CopyFits length copy (cur ++ (next :: more).flatten) left dp ↔
        CopyFits length copy (next ++ more.flatten) (left - cur.length) (dp + cur.length) := by
      simp only [CopyFits, htake, List.flatten_cons, List.length_append, List.mem_append, not_or]
      constructor
      · rintro ⟨h1, h2⟩
        exact ⟨by omega, fun hc => ⟨(h2 hc).1.2, .inr (by have := (h2 hc).2; omega)⟩⟩
      · rintro ⟨h1, h2⟩
        exact ⟨by omega, fun hc => ⟨⟨fun hm => hbad ⟨hc, .inl hm⟩, (h2 hc).1⟩, .inr (by have := (h2 hc).2; omega)⟩⟩
    rw [hfit]
    refine ⟨fun h => ?_, hnone⟩
    obtain ⟨cur', more', heq, hrest⟩ := hsome h
    refine ⟨cur', more', ?_, ?_⟩
    · dsimp only
      rw [heq, List.flatten_cons, htake]
      cases copy with
      | true => simp only [if_true, put_append]
      | false => rfl
    · rw [hrest, List.flatten_cons, hdrop]
termination_by more => more.length

/-! ## The bitmap -/

structure FragInfo.Counts (fip : FragInfo) : Prop where
  numNa : fip.numNa = {i ∈ Finset.range fip.total | fip.bitmap i = false}.card
  firstNa : fip.numNa ≠ 0 → fip.firstNa < fip.total ∧ fip.bitmap fip.firstNa = false ∧
    ∀ i < fip.firstNa, fip.bitmap i = true

theorem rfraginfoCreate_counts (stale : Nat → UInt8) (m : FragSMsg) (maxFrags : Nat) :
    (rfraginfoCreate stale m maxFrags).Counts := by
  refine ⟨by simp [rfraginfoCreate], fun h => ⟨Nat.pos_of_ne_zero h, rfl, nofun⟩⟩

theorem nextClear_spec (bitmap : Nat → Bool) : ∀ (fuel i : Nat), (∃ j, i ≤ j ∧ j < i + fuel ∧ bitmap j = false) →
    ∃ m, nextClear bitmap fuel i = some m ∧ m < i + fuel ∧ bitmap m = false ∧ ∀ j, i ≤ j → j < m → bitmap j = true
  | 0, i, ⟨j, h1, h2, _⟩ => by omega
  | fuel + 1, i, ⟨j, h1, h2, hj⟩ => by
    rw [nextClear]
    cases hi : bitmap i with
    | false => exact ⟨i, rfl, by omega, hi, fun k h3 h4 => by omega⟩
    | true =>
      have hne : i ≠ j := by
        rintro rfl
        rw [hi] at hj
        cases hj
      obtain ⟨m, hm, hlt, hclear, hset⟩ := nextClear_spec bitmap fuel (i + 1) ⟨j, by omega, by omega, hj⟩
      refine ⟨m, hm, by omega, hclear, fun k h3 h4 => ?_⟩
      rcases Nat.eq_or_lt_of_le h3 with rfl | h3
      · exact hi
      · exact hset k h3 h4

theorem FragInfo.Counts.mark {fip : FragInfo} (h : fip.Counts) (hf : f < fip.total) (hb : fip.bitmap f = false) :
    ∃ fip', fip.mark f = some fip' ∧ fip'.Counts ∧ fip'.bitmap = (fun i => i == f || fip.bitmap i) ∧
      fip'.total = fip.total ∧ fip'.length = fip.length := by
  have hset : {i ∈ Finset.range fip.total | (i == f || fip.bitmap i) = false} =
      {i ∈ Finset.range fip.total | fip.bitmap i = false}.erase f := by
    ext i
    simp only [Finset.mem_filter, Finset.mem_erase, Bool.or_eq_false_iff, beq_eq_false_iff_ne]
    tauto
  have hcard : fip.numNa - 1 = {i ∈ Finset.range fip.total | (i == f || fip.bitmap i) = false}.card := by
    rw [hset, Finset.card_erase_of_mem (by simp [hf, hb]), h.numNa]
  obtain ⟨hlt, hclear, hbelow⟩ := h.firstNa (by
    rw [h.numNa, ← Nat.pos_iff_ne_zero, Finset.card_pos]
    exact ⟨f, by simp [hf, hb]⟩)
  unfold FragInfo.mark
  dsimp only
  split
  · rename_i hfirst
    obtain ⟨hne, hfeq⟩ := hfirst
    obtain ⟨j, hj⟩ := Finset.card_pos.1 (Nat.pos_of_ne_zero (hcard ▸ hne))
    obtain ⟨hj1, hj2⟩ := Finset.mem_filter.1 hj
    rw [Bool.or_eq_false_iff, beq_eq_false_iff_ne] at hj2
    have hfj : f < j := by
      rcases Nat.lt_or_ge f j with hlt | hge
      · exact hlt
      · have := hbelow j (by omega)
        rw [hj2.2] at this
        cases this
    obtain ⟨m, hm, hlt', hmc, hms⟩ := nextClear_spec (fun i => i == f || fip.bitmap i) (fip.total - (f + 1)) (f + 1)
      ⟨j, hfj, by have := Finset.mem_range.1 hj1; omega, by simp [hj2.2, hj2.1]⟩
    rw [hm]
    refine ⟨_, rfl, ⟨hcard, fun _ => ⟨by show m < fip.total; omega, hmc, fun i hi => ?_⟩⟩, rfl, rfl, rfl⟩
    have hi' : i < m := hi
    rcases Nat.lt_trichotomy i f with hif | rfl | hif
    · simp [hbelow i (by omega)]
    · simp
    · exact hms i hif hi'
  · rename_i hfirst
    refine ⟨_, rfl, ⟨hcard, fun hne => ⟨hlt, ?_, fun i hi => ?_⟩⟩, rfl, rfl, rfl⟩
    · have hff : fip.firstNa ≠ f := fun he => hfirst ⟨hne, he⟩
      simp [hff, hclear]
    · simp [hbelow i hi]

/-! ## The fragments of a message -/

def consumed (fsize dleft j : Nat) : Nat := min (j * fsize) dleft

theorem consumed_succ (fsize dleft j : Nat) :
    consumed fsize dleft (j + 1) = min fsize dleft + consumed fsize (dleft - min fsize dleft) j := by
  simp only [consumed, Nat.succ_mul]
  omega

/-- What `mark_fragment` asks for: each index is below `total`, the source has the bytes, and those of a new fragment
are of the payload and have room in the buffer. -/
def FragFits (fip : FragInfo) (fsize k f : Nat) (src : List RxByte) (dleft dp : Nat) : Prop :=
  ∀ j < k, f + j < fip.total ∧ CopyFits fip.length (!fip.bitmap (f + j)) (src.drop (consumed fsize dleft j))
    (consumed fsize dleft (j + 1) - consumed fsize dleft j) (dp + consumed fsize dleft j)

theorem fragFits_succ (ht : fip'.total = fip.total)
    (hl : fip'.length = fip.length) (hb : ∀ i, f < i → fip'.bitmap i = fip.bitmap i) :
    FragFits fip fsize (k + 1) f src dleft dp ↔ f < fip.total ∧
      CopyFits fip.length (!fip.bitmap f) src (min fsize dleft) dp ∧
      FragFits fip' fsize k (f + 1) (src.drop (min fsize dleft)) (dleft - min fsize dleft) (dp + min fsize dleft) := by
  have h0 : consumed fsize dleft 0 = 0 := by simp [consumed]
  have h1 : consumed fsize dleft 1 = min fsize dleft := by simp [consumed]
  have hj : ∀ j, CopyFits fip'.length (!fip'.bitmap (f + 1 + j))
        ((src.drop (min fsize dleft)).drop (consumed fsize (dleft - min fsize dleft) j))
        (consumed fsize (dleft - min fsize dleft) (j + 1) - consumed fsize (dleft - min fsize dleft) j)
        (dp + min fsize dleft + consumed fsize (dleft - min fsize dleft) j) ↔
      CopyFits fip.length (!fip.bitmap (f + (j + 1))) (src.drop (consumed fsize dleft (j + 1)))
        (consumed fsize dleft (j + 1 + 1) - consumed fsize dleft (j + 1)) (dp + consumed fsize dleft (j + 1)) := by
    intro j
    rw [hl, hb _ (by omega), List.drop_drop, consumed_succ fsize dleft (j + 1), consumed_succ fsize dleft j,
      Nat.add_sub_add_left, Nat.add_assoc f, Nat.add_comm 1 j, Nat.add_assoc dp]
  constructor
  · intro h
    refine ⟨(h 0 (by omega)).1, by simpa [h0, h1] using (h 0 (by omega)).2, fun j hjk =>
      ⟨?_, (hj j).2 (h (j + 1) (by omega)).2⟩⟩
    have := (h (j + 1) (by omega)).1
    omega
  · rintro ⟨h2, h3, h4⟩ j hjk
    cases j with
    | zero => exact ⟨h2, by simpa [h0, h1] using h3⟩
    | succ j => exact ⟨by have := (h4 j (by omega)).1; omega, (hj j).1 (h4 j (by omega)).2⟩

theorem markLoop_step (hc : fip.Counts) :
    (f < fip.total ∧ CopyFits fip.length (!fip.bitmap f) (cur ++ more.flatten) (min fsize dleft) dp →
      ∃ cur' more' fip', markLoop fsize (k + 1) f cur more dleft dp fip =
          markLoop fsize k (f + 1) cur' more' (dleft - min fsize dleft) (dp + min fsize dleft) fip' ∧
        cur' ++ more'.flatten = (cur ++ more.flatten).drop (min fsize dleft) ∧ fip'.Counts ∧
        fip'.total = fip.total ∧ fip'.length = fip.length ∧ (∀ i, fip'.bitmap i = (i == f || fip.bitmap i)) ∧
        fip'.data = if fip.bitmap f then fip.data
          else put fip.data dp ((cur ++ more.flatten).take (min fsize dleft))) ∧
    (¬ (f < fip.total ∧ CopyFits fip.length (!fip.bitmap f) (cur ++ more.flatten) (min fsize dleft) dp) →
      markLoop fsize (k + 1) f cur more dleft dp fip = none) := by
  obtain ⟨hsome, hnone⟩ := copyLoop_spec fip.length (!fip.bitmap f) more cur (min fsize dleft) dleft dp fip.data
    (Nat.min_le_right _ _)
  rw [markLoop]
  by_cases hf : f < fip.total
  · rw [if_neg (by omega)]
    constructor
    · rintro ⟨_, hfit⟩
      obtain ⟨cur', more', heq, hrest⟩ := hsome hfit
      rw [heq]
      cases hb : fip.bitmap f with
      | true =>
        refine ⟨cur', more', fip, by simp, hrest, hc, rfl, rfl, fun i => ?_, by simp⟩
        by_cases hi : i = f
        · simp [hi, hb]
        · simp [hi]
      | false =>
        obtain ⟨fip', hm, hc', hbit, ht, hl⟩ := hc.mark hf hb
        exact ⟨cur', more', { fip' with data := put fip.data dp ((cur ++ more.flatten).take (min fsize dleft)) },
          by simp [hm], hrest, ⟨hc'.numNa, hc'.firstNa⟩, ht, hl, fun i => by rw [hbit], by simp⟩
    · intro hbad
      rw [hnone (fun h => hbad ⟨hf, h⟩)]
      cases (if fip.bitmap f = true then some fip else fip.mark f) <;> rfl
  · rw [if_pos (by omega)]
    exact ⟨fun h => absurd h.1 hf, fun _ => rfl⟩

end Qeo.Rtps
