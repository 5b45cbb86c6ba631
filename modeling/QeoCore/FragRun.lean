import QeoCore.Frag
/-!
# FragRun — fragments in any order, and fragments that do not fit

The messages about a sample may come in any order, repeat and overlap.  But fragment numbers are only checked against
the sample's size when a message makes the context, and its payload is not checked at all.
-/
namespace Qeo.Rtps

open List Nat

variable {fip : FragInfo} {m : FragSMsg} {stale : Nat → UInt8} {ignore : Bool}

def fragContext (stale : Nat → UInt8) (ignore : Bool) : Option FragInfo → FragSMsg → Option FragInfo
  | some fip, m => if m.fragStart = 1 ∧ ignore then none else some fip
  | none, m =>
    let maxFrags := (m.sampleSize + m.fragSize - 1) % 2 ^ 32 / m.fragSize
    if maxFrags < (m.fragStart + m.numFragments + 2 ^ 32 - 1) % 2 ^ 32 then none
    else some (rfraginfoCreate stale m maxFrags)

/-! ## Fragments that fit -/

theorem markLoop_isSome_iff : ∀ {k f dleft dp : Nat} {cur : List RxByte} {more : List (List RxByte)}
    {fip : FragInfo}, fip.Counts →
    ((markLoop fsize k f cur more dleft dp fip).isSome ↔ FragFits fip fsize k f (cur ++ more.flatten) dleft dp)
  | 0, f, dleft, dp, cur, more, fip, _ => iff_of_true rfl nofun
  | k + 1, f, dleft, dp, cur, more, fip, hc => by
    by_cases hfit : f < fip.total ∧ CopyFits fip.length (!fip.bitmap f) (cur ++ more.flatten) (min fsize dleft) dp
    · obtain ⟨cur', more', fip', heq, hrest, hc', ht, hl, hb, _⟩ := (markLoop_step hc).1 hfit
      have hb' : ∀ i, f < i → fip'.bitmap i = fip.bitmap i := by
        intro i hi
        rw [hb, beq_eq_false_iff_ne.2 (show i ≠ f by omega), Bool.false_or]
      rw [heq, markLoop_isSome_iff hc', hrest, fragFits_succ ht hl hb']
      exact ⟨fun h => ⟨hfit.1, hfit.2, h⟩, fun h => h.2.2⟩
    · rw [(markLoop_step hc).2 hfit, fragFits_succ rfl rfl fun _ _ => rfl]
      exact iff_of_false (by simp) fun h => hfit ⟨h.1, h.2.1⟩

def FragInfo.Admits (fip : FragInfo) (m : FragSMsg) : Prop :=
  FragFits fip m.fragSize m.numFragments (m.fragStart - 1) m.bytes ((fip.length + 2 ^ 32 - m.ofs) % 2 ^ 32) m.ofs

def FragSMsg.Accepted (m : FragSMsg) (max : Nat) : Prop :=
  m.sampleSize ≤ max ∧ m.fragSize < m.sampleSize ∧ 128 ≤ m.fragSize ∧ m.fragSize ≤ 65000 ∧ 1 ≤ m.fragStart

/-- **`mark_fragment` keeps to its context and ends if and only if the fragments fit it**, whatever context there is. -/
theorem fragment_confined_iff {ctx : Option FragInfo} (hctx : ∀ fip ∈ ctx, fip.Counts) :
    (∀ fip ∈ fragContext stale ignore ctx m, (markFragment fip m).isSome) ↔
      ∀ fip ∈ fragContext stale ignore ctx m, fip.Admits m := by
  have hcounts : ∀ fip ∈ fragContext stale ignore ctx m, fip.Counts := by
    intro fip hm
    cases ctx with
    | some fip' =>
      simp only [fragContext] at hm
      split at hm
      · cases hm
      · exact hctx fip hm
    | none =>
      simp only [fragContext] at hm
      split at hm
      · cases hm
      · cases hm
        exact rfraginfoCreate_counts stale m _
  exact forall₂_congr fun fip hm => markLoop_isSome_iff (hcounts fip hm)

theorem last_fragment_confined :
    let m : FragSMsg := ⟨2, 1, 128, 130, [some 7], [[some 8, none]]⟩
    m.Accepted 1000 ∧ ∀ fip ∈ fragContext (fun _ => 0) false none m, (markFragment fip m).isSome := by
  intro m
  have hctx : fragContext (fun _ => 0) false none m =
    some (rfraginfoCreate (fun _ => 0) m 2) := by simp [fragContext, m]
  refine ⟨by simp [FragSMsg.Accepted, m], (fragment_confined_iff (by simp)).2 ?_⟩
  rw [hctx]
  rintro fip ⟨⟩ j hj
  obtain rfl : j = 0 := by simpa [m] using hj
  exact ⟨by decide, by decide, fun _ => ⟨by decide, .inr (by decide)⟩⟩

/-- A message about 300 bytes makes a context for two fragments; one about 1000 bytes then brings the third. -/
theorem third_fragment_of_two :
    let m : FragSMsg := ⟨1, 0, 200, 300, [some 7], []⟩
    let m' : FragSMsg := ⟨3, 1, 200, 1000, [some 7], []⟩
    m.Accepted 1000 ∧ m'.Accepted 1000 ∧
    ∃ fip, fragContext (fun _ => 0) false none m = some fip ∧ markFragment fip m = some fip ∧ fip.Counts ∧
      fragContext (fun _ => 0) false (some fip) m' = some fip ∧ markFragment fip m' = none := by
  intro m m'
  exact ⟨by simp [FragSMsg.Accepted, m], by simp [FragSMsg.Accepted, m'], rfraginfoCreate (fun _ => 0) m 2,
    by simp [fragContext, m], rfl, rfraginfoCreate_counts _ _ _, by simp [fragContext],
    by simp [markFragment, m', markLoop, rfraginfoCreate]⟩

/-! ## Fragments in any order -/

variable {sample : List UInt8} {fsize : Nat}

def fragCount (sample : List UInt8) (fsize : Nat) : Nat := (sample.length + fsize - 1) / fsize

structure FragSMsg.Carries (m : FragSMsg) (sample : List UInt8) (fsize : Nat) : Prop where
  sampleSize : m.sampleSize = sample.length
  fragSize : m.fragSize = fsize
  start : 1 ≤ m.fragStart
  within : m.fragStart + m.numFragments - 1 ≤ fragCount sample fsize
  payload : ∀ x < m.numFragments * fsize, ∀ b, sample[(m.fragStart - 1) * fsize + x]? = some b →
    m.bytes[x]? = some (some b)

def FragSMsg.Brings (m : FragSMsg) (i : Nat) : Prop := m.fragStart - 1 ≤ i ∧ i < m.fragStart - 1 + m.numFragments

structure FragInfo.Assembles (fip : FragInfo) (sample : List UInt8) (fsize : Nat) : Prop where
  counts : fip.Counts
  total : fip.total = fragCount sample fsize
  length : fip.length = sample.length
  data : ∀ i, fip.bitmap i = true → ∀ x, i * fsize ≤ x → x < (i + 1) * fsize → ∀ b, sample[x]? = some b → fip.data x = b

theorem mul_lt_of_lt_fragCount (hf : 0 < fsize) (h : i < fragCount sample fsize) : i * fsize < sample.length := by
  have := (le_div_iff_mul_le hf).1 (show i + 1 ≤ (sample.length + fsize - 1) / fsize from h)
  rw [succ_mul] at this
  omega

theorem put_get {dp x : Nat} {src : List RxByte} (hx : dp ≤ x)
    (h : src[x - dp]? = some (some b)) : put data dp src x = b := by
  rw [put, if_pos hx, h]
  rfl

theorem put_outside (h : x < dp ∨ dp + src.length ≤ x) : put data dp src x = data x := by
  unfold put
  split
  · rw [getElem?_eq_none (by omega)]
    rfl
  · rfl

/-- **A message about the sample is taken in**: its fragments are marked, and their bytes are in the buffer. -/
theorem markLoop_assembles (hf : 0 < fsize) : ∀ (k f : Nat) (cur : List RxByte) (more : List (List RxByte)) (dp : Nat)
    {fip : FragInfo}, fip.Assembles sample fsize → f + k ≤ fip.total →
    (∀ x < k * fsize, ∀ b, sample[f * fsize + x]? = some b → (cur ++ more.flatten)[x]? = some (some b)) →
    dp = min (f * fsize) sample.length →
    ∃ fip', markLoop fsize k f cur more (sample.length - dp) dp fip = some fip' ∧ fip'.Assembles sample fsize ∧
      ∀ i, fip'.bitmap i = true ↔ fip.bitmap i = true ∨ f ≤ i ∧ i < f + k
  | 0, f, cur, more, dp, fip, h, _, _, _ => ⟨fip, rfl, h, fun i => by simp⟩
  | k + 1, f, cur, more, dp, fip, h, hle, hpay, hdp => by
    rw [succ_mul] at hpay
    obtain ⟨left, hleft⟩ : ∃ left, left = min fsize (sample.length - dp) := ⟨_, rfl⟩
    have hbyte : ∀ x < left, ∃ b, sample[f * fsize + x]? = some b ∧ (cur ++ more.flatten)[x]? = some (some b) := by
      intro x hx
      have hx' : f * fsize + x < sample.length := by omega
      exact ⟨_, getElem?_eq_getElem hx', hpay x (by omega) _ (getElem?_eq_getElem hx')⟩
    have hlen : left ≤ (cur ++ more.flatten).length := by
      rcases Nat.eq_zero_or_pos left with h0 | h0
      · omega
      · obtain ⟨b, _, hb⟩ := hbyte (left - 1) (by omega)
        have := (List.getElem?_eq_some_iff.1 hb).1
        omega
    have hfit : CopyFits fip.length (!fip.bitmap f) (cur ++ more.flatten) (min fsize (sample.length - dp)) dp := by
      rw [← hleft]
      refine ⟨hlen, fun _ => ⟨fun hm => ?_, .inr (by rw [h.length]; omega)⟩⟩
      obtain ⟨x, hx⟩ := mem_iff_getElem?.1 hm
      rw [getElem?_take] at hx
      split at hx
      · obtain ⟨b, _, hb⟩ := hbyte x (by omega)
        rw [hb] at hx
        cases hx
      · cases hx
    obtain ⟨cur', more', fip1, heq, hrest, hc, ht, hl, hb, hdata⟩ := (markLoop_step h.counts).1 ⟨by omega, hfit⟩
    rw [← hleft] at heq hrest hdata
    have h₁ : fip1.Assembles sample fsize := by
      refine ⟨hc, ht.trans h.total, hl.trans h.length, fun i hi x hx1 hx2 b hs => ?_⟩
      have hxs : x < sample.length := (List.getElem?_eq_some_iff.1 hs).1
      rw [hb, Bool.or_eq_true, beq_iff_eq] at hi
      rw [hdata]
      by_cases hif : i = f
      · subst hif
        cases hbf : fip.bitmap i with
        | true => exact h.data i hbf x hx1 hx2 b hs
        | false =>
          rw [succ_mul] at hx2
          have hx3 : x - dp < left := by omega
          refine put_get (by omega) ?_
          obtain ⟨b', hs', hb'⟩ := hbyte (x - dp) hx3
          rw [show i * fsize + (x - dp) = x by omega, hs] at hs'
          rw [getElem?_take, if_pos hx3, hb', ← Option.some.inj hs']
      have hold := h.data i (hi.resolve_left hif) x hx1 hx2 b hs
      split
      · exact hold
      -- Another fragment's bytes are before those just written or behind.
      rw [put_outside, hold]
      rw [length_take]
      rcases lt_or_gt_of_ne hif with hlt' | hgt
      · have := mul_le_mul_right fsize (show i + 1 ≤ f from hlt')
        omega
      · have := mul_le_mul_right fsize (show f + 1 ≤ i from hgt)
        rw [succ_mul] at this
        omega
    have hpay' : ∀ x < k * fsize, ∀ b, sample[(f + 1) * fsize + x]? = some b →
        (cur' ++ more'.flatten)[x]? = some (some b) := by
      intro x hx b hs
      have hxs := (List.getElem?_eq_some_iff.1 hs).1
      rw [succ_mul] at hxs hs
      rw [hrest, getElem?_drop]
      exact hpay (left + x) (by omega) b (by rw [← hs, show f * fsize + (left + x) = f * fsize + fsize + x by omega])
    obtain ⟨fip', hrun, h', hbit⟩ := markLoop_assembles hf k (f + 1) cur' more' (dp + left) h₁ (by omega) hpay'
      (by rw [succ_mul]; omega)
    refine ⟨fip', ?_, h', fun i => ?_⟩
    · rw [heq, ← hrun, show sample.length - dp - left = sample.length - (dp + left) by omega]
    · rw [hbit, hb, Bool.or_eq_true, beq_iff_eq, or_assoc, or_comm, or_assoc]
      exact or_congr Iff.rfl (by omega)

theorem markFragment_assembles (hf : 0 < fsize) (hmax : sample.length + fsize ≤ 2 ^ 32) (h : fip.Assembles sample fsize)
    (hm : m.Carries sample fsize) :
    ∃ fip', markFragment fip m = some fip' ∧ fip'.Assembles sample fsize ∧
      ∀ i, fip'.bitmap i = true ↔ fip.bitmap i = true ∨ m.Brings i := by
  have hle : m.fragStart - 1 + m.numFragments ≤ fip.total := by
    have h1 := hm.start
    have h2 := hm.within
    rw [h.total]
    omega
  rcases Nat.eq_zero_or_pos m.numFragments with h0 | h0
  · rw [markFragment, h0]
    exact ⟨fip, rfl, h, fun i => by simp [FragSMsg.Brings, h0]⟩
  have hlt := mul_lt_of_lt_fragCount hf (show m.fragStart - 1 < fragCount sample fsize by rw [← h.total]; omega)
  have hofs : m.ofs = (m.fragStart - 1) * fsize := by rw [FragSMsg.ofs, hm.fragSize, mod_eq_of_lt (by omega)]
  obtain ⟨fip', hrun, h', hbit⟩ := markLoop_assembles hf m.numFragments (m.fragStart - 1) m.cur m.more m.ofs h hle
    hm.payload (by omega)
  refine ⟨fip', ?_, h', hbit⟩
  rw [markFragment, hm.fragSize, h.length,
    show (sample.length + 2 ^ 32 - m.ofs) % 2 ^ 32 = sample.length - m.ofs by omega, hrun]

theorem foldlM_assembles (hf : 0 < fsize) (hmax : sample.length + fsize ≤ 2 ^ 32) : ∀ {ms : List FragSMsg}
    {fip : FragInfo}, fip.Assembles sample fsize → (∀ m ∈ ms, m.Carries sample fsize) →
    ∃ fip', ms.foldlM markFragment fip = some fip' ∧ fip'.Assembles sample fsize ∧
      ∀ i, fip'.bitmap i = true ↔ fip.bitmap i = true ∨ ∃ m ∈ ms, m.Brings i
  | [], fip, h, _ => ⟨fip, rfl, h, fun i => by simp⟩
  | m :: ms, fip, h, hms => by
    obtain ⟨hm, hms⟩ := forall_mem_cons.1 hms
    obtain ⟨fip1, hrun1, h₁, hb1⟩ := markFragment_assembles hf hmax h hm
    obtain ⟨fip2, hrun2, h₂, hb2⟩ := foldlM_assembles hf hmax h₁ hms
    refine ⟨fip2, by rw [foldlM_cons, hrun1]; exact hrun2, h₂, fun i => ?_⟩
    rw [hb2, hb1, exists_mem_cons_iff, or_assoc]

theorem rfraginfoCreate_assembles (hm : m.Carries sample fsize) :
    (rfraginfoCreate stale m (fragCount sample fsize)).Assembles sample fsize :=
  ⟨rfraginfoCreate_counts _ _ _, rfl, hm.sampleSize, nofun⟩

theorem fragContext_first (hmax : sample.length + fsize ≤ 2 ^ 32) (hm : m.Carries sample fsize) :
    fragContext stale ignore none m = some (rfraginfoCreate stale m (fragCount sample fsize)) := by
  have hw := hm.within
  have hs := hm.start
  have hcount : (sample.length + fsize - 1) % 2 ^ 32 / fsize = fragCount sample fsize := by
    rw [mod_eq_of_lt (by omega)]
    rfl
  rw [fragContext, hm.sampleSize, hm.fragSize, hcount]
  exact if_neg (by omega)

/-- **Well-formed fragments may come in any order, repeat and overlap**: the counters stay right, and the buffer holds
the bytes of all that have come, so that none is missing exactly when it holds the sample. -/
theorem reassembly_correct (hf : 0 < fsize) (hmax : sample.length + fsize ≤ 2 ^ 32)
    {ms : List FragSMsg} (hms : ∀ m' ∈ m :: ms, m'.Carries sample fsize) :
    ∃ fip, (fragContext stale ignore none m).bind (fun fip => (m :: ms).foldlM markFragment fip) = some fip ∧
      fip.Counts ∧ fip.total = fragCount sample fsize ∧
      (∀ i, fip.bitmap i = true ↔ ∃ m' ∈ m :: ms, m'.Brings i) ∧
      (∀ i, fip.bitmap i = true → ∀ x, i * fsize ≤ x → x < (i + 1) * fsize → ∀ b, sample[x]? = some b →
        fip.data x = b) ∧
      (fip.numNa = 0 ↔ ∀ i < fragCount sample fsize, ∃ m' ∈ m :: ms, m'.Brings i) ∧
      (fip.numNa = 0 → ∀ x b, sample[x]? = some b → fip.data x = b) := by
  have hm := hms m (by simp)
  have hnew : (rfraginfoCreate stale m (fragCount sample fsize)).Assembles sample fsize := rfraginfoCreate_assembles hm
  obtain ⟨fip, hrun, h, hb⟩ := foldlM_assembles hf hmax hnew hms
  have hbit : ∀ i, fip.bitmap i = true ↔ ∃ m' ∈ m :: ms, m'.Brings i := fun i =>
    (hb i).trans (by simp [rfraginfoCreate])
  have hzero : fip.numNa = 0 ↔ ∀ i < fragCount sample fsize, fip.bitmap i = true := by
    rw [h.counts.numNa, h.total]
    simp
  refine ⟨fip, by rw [fragContext_first hmax hm]; exact hrun, h.counts, h.total, hbit, h.data, ?_, ?_⟩
  · rw [hzero]
    exact forall₂_congr fun i _ => hbit i
  intro h0 x b hs
  have hx : x < sample.length := (List.getElem?_eq_some_iff.1 hs).1
  have hi : x / fsize < fragCount sample fsize := by
    refine (le_div_iff_mul_le hf).2 ?_
    rw [succ_mul]
    have := div_mul_le_self x fsize
    omega
  exact h.data _ (hzero.1 h0 _ hi) x (div_mul_le_self x fsize) (lt_mul_of_div_lt (lt_succ_self _) hf) b hs

theorem reassembly_last_first :
    let m : FragSMsg := ⟨2, 1, 2, 3, [some 7], [[none]]⟩
    let m' : FragSMsg := ⟨1, 2, 2, 3, [some 5], [[some 6, some 7, none]]⟩
    ∃ fip, (fragContext (fun _ => 0) false none m).bind (fun fip => [m, m'].foldlM markFragment fip) = some fip ∧
      fip.numNa = 0 ∧ ∀ x b, [5, 6, 7][x]? = some b → fip.data x = b := by
  intro m m'
  have hm : m.Carries [5, 6, 7] 2 := ⟨rfl, rfl, by decide, by decide, by
    rintro (_ | x) hx b hs
    · simpa [m, FragSMsg.bytes] using hs
    · rw [getElem?_eq_none (by simp [m]; omega)] at hs
      cases hs⟩
  have hm' : m'.Carries [5, 6, 7] 2 := ⟨rfl, rfl, by decide, by decide, by
    rintro (_ | _ | _ | x) hx b hs
    · simpa [m', FragSMsg.bytes] using hs
    · simpa [m', FragSMsg.bytes] using hs
    · simpa [m', FragSMsg.bytes] using hs
    · cases hs⟩
  obtain ⟨fip, hrun, _, _, _, _, hzero, hdata⟩ := @reassembly_correct m (fun _ => 0) false [5, 6, 7] 2 (by decide)
    (by decide) [m'] (by simpa using ⟨hm, hm'⟩)
  have h0 : fip.numNa = 0 := hzero.2 fun i hi => ⟨m', by simp, zero_le i, by simpa [m', fragCount] using hi⟩
  exact ⟨fip, hrun, h0, hdata h0⟩

end Qeo.Rtps
