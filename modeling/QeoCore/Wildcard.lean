import Mathlib.Data.List.Sort
import Mathlib.Data.List.Lex
import Mathlib.Data.List.TakeWhile
/-!
# Wildcard — names and patterns with a trailing wildcard

A pattern is a name that ends with `star`; it covers every name that starts with what comes before.  `Longer` orders
names by length, the longest first, and those of one length as words.
-/
namespace Wildcard

open List

variable {α : Type*} [DecidableEq α] {star : α} {v w t : List α}

def stem (star : α) (w : List α) : List α := w.takeWhile (· != star)

def Trailing (star : α) (w : List α) : Prop := star ∉ w.dropLast

instance (star : α) (w : List α) : Decidable (Trailing star w) := inferInstanceAs (Decidable (star ∉ w.dropLast))

def Covers (star : α) (w t : List α) : Prop := w = t ∨ (star ∈ w ∧ stem star w <+: t)

instance (star : α) (w t : List α) : Decidable (Covers star w t) :=
  inferInstanceAs (Decidable (w = t ∨ (star ∈ w ∧ stem star w <+: t)))

theorem not_mem_stem (star : α) (w : List α) : star ∉ stem star w := by
  intro h
  have := mem_takeWhile_imp h
  simp at this

theorem stem_concat (h : star ∉ v) : stem star (v ++ [star]) = v := by
  unfold stem
  rw [takeWhile_append_of_pos fun x hx => by simpa using fun he : x = star => h (he ▸ hx)]
  simp

theorem eq_stem_concat (h : star ∈ w) (ht : Trailing star w) : w = stem star w ++ [star] := by
  rcases eq_nil_or_concat w with rfl | ⟨v, x, rfl⟩
  · cases h
  unfold Trailing at ht
  rw [concat_eq_append] at h ht ⊢
  rw [dropLast_concat] at ht
  obtain rfl : star = x := by
    rcases mem_append.1 h with h | h
    · exact absurd h ht
    · exact mem_singleton.1 h
  rw [stem_concat ht]

theorem length_eq (h : star ∈ w) (ht : Trailing star w) : w.length = (stem star w).length + 1 := by
  have := congrArg List.length (eq_stem_concat h ht)
  simpa using this

theorem stem_isPrefix_stem (hw : star ∈ w) (ht : Trailing star w) (h : stem star v <+: w) :
    stem star v <+: stem star w := by
  rw [eq_stem_concat hw ht] at h
  rcases prefix_concat_iff.1 h with h | h
  · exact absurd (h ▸ by simp : star ∈ stem star v) (not_mem_stem star v)
  · exact h

theorem Covers.trans_wild (hw : star ∈ w) (ht : Trailing star w) (h : Covers star v w) (h' : stem star w <+: t) :
    stem star v <+: t := by
  rcases h with rfl | ⟨_, h⟩
  · exact h'
  · exact (stem_isPrefix_stem hw ht h).trans h'

theorem eq_of_length_eq (hv : star ∈ v) (hvt : Trailing star v) (hw : star ∈ w) (hwt : Trailing star w)
    (h : stem star v <+: t) (h' : stem star w <+: t) (hl : v.length = w.length) : v = w := by
  rw [length_eq hv hvt, length_eq hw hwt] at hl
  have he : stem star v = stem star w := by rw [prefix_iff_eq_take.1 h, prefix_iff_eq_take.1 h', Nat.succ.inj hl]
  rw [eq_stem_concat hv hvt, he, ← eq_stem_concat hw hwt]

theorem length_lt_of_covers (hv : star ∈ v) (hvt : Trailing star v) (hw : star ∈ w) (hwt : Trailing star w)
    (hne : v ≠ w) (h : Covers star v w) : v.length < w.length := by
  have hp := stem_isPrefix_stem hw hwt (h.resolve_left hne).2
  have hle := hp.length_le
  rw [length_eq hv hvt, length_eq hw hwt]
  rcases Nat.lt_or_eq_of_le hle with hlt | heq
  · omega
  · have he := hp.eq_of_length heq
    exact absurd (by rw [eq_stem_concat hv hvt, he, ← eq_stem_concat hw hwt]) hne

/-! ## The longest first -/

section

variable {β : Type*} [LinearOrder β] {a b c : List β}

def Longer (a b : List β) : Prop := b.length < a.length ∨ (a.length = b.length ∧ a ≤ b)

instance (a b : List β) : Decidable (Longer a b) :=
  inferInstanceAs (Decidable (b.length < a.length ∨ (a.length = b.length ∧ a ≤ b)))

theorem Longer.length_le (h : Longer a b) : b.length ≤ a.length := by
  rcases h with h | ⟨h, _⟩
  · exact h.le
  · exact h.ge

theorem longer_total (a b : List β) : Longer a b ∨ Longer b a := by
  rcases Nat.lt_trichotomy a.length b.length with h | h | h
  · exact .inr (.inl h)
  · rcases le_total a b with hab | hba
    · exact .inl (.inr ⟨h, hab⟩)
    · exact .inr (.inr ⟨h.symm, hba⟩)
  · exact .inl (.inl h)

theorem Longer.trans (h : Longer a b) (h' : Longer b c) : Longer a c := by
  rcases h with h | ⟨h, hab⟩ <;> rcases h' with h' | ⟨h', hbc⟩
  · exact .inl (h'.trans h)
  · exact .inl (h' ▸ h)
  · exact .inl (h ▸ h')
  · exact .inr ⟨h.trans h', hab.trans hbc⟩

theorem Longer.antisymm (h : Longer a b) (h' : Longer b a) : a = b := by
  rcases h with h | ⟨_, hab⟩ <;> rcases h' with h' | ⟨h', hba⟩
  · exact absurd h h'.asymm
  · exact absurd h (by omega)
  · exact absurd h' (by omega)
  · exact le_antisymm hab hba

end

/-! ## The name that comes first, and the most specific one -/

/-- Of the names in `S` that cover `t`, the first one. -/
def Leads [LinearOrder α] (star : α) (S : List α → Prop) (w t : List α) : Prop :=
  S w ∧ Covers star w t ∧ ∀ v, S v → Covers star v t → Longer w v

/-- The name itself if it is in `S`, and otherwise the pattern in `S` with the longest stem. -/
def Specific (star : α) (S : List α → Prop) (w t : List α) : Prop :=
  S w ∧ (w = t ∨ ¬S t ∧ star ∈ w ∧ stem star w <+: t ∧
    ∀ v, S v → star ∈ v → stem star v <+: t → (stem star v).length ≤ (stem star w).length)

variable {S S' : List α → Prop} {m : List α}

theorem Specific.unique (htr : ∀ v, S v → Trailing star v) (h : Specific star S v t) (h' : Specific star S w t) :
    v = w := by
  obtain ⟨hv, rfl | ⟨hn, hvw, hvp, hmax⟩⟩ := h
  · obtain ⟨_, rfl | ⟨hn, _⟩⟩ := h'
    · rfl
    · exact absurd hv hn
  obtain ⟨hw, rfl | ⟨_, hww, hwp, hmax'⟩⟩ := h'
  · exact absurd hw hn
  refine eq_of_length_eq hvw (htr v hv) hww (htr w hw) hvp hwp ?_
  rw [length_eq hvw (htr v hv), length_eq hww (htr w hw)]
  have h1 := hmax w hw hww hwp
  have h2 := hmax' v hv hvw hvp
  omega

theorem Specific.covers (h : Specific star S w t) : Covers star w t := by
  rcases h.2 with he | ⟨_, hw, hp, _⟩
  · exact .inl he
  · exact .inr ⟨hw, hp⟩

section

variable [LinearOrder α]

theorem Leads.unique (h : Leads star S v t) (h' : Leads star S w t) : v = w :=
  (h.2.2 w h'.1 h'.2.1).antisymm (h'.2.2 v h.1 h.2.1)

theorem Leads.wild (h : Leads star S w t) (hne : w ≠ t) : star ∈ w ∧ stem star w <+: t := h.2.1.resolve_left hne

section
variable (htr : ∀ v, S v → Trailing star v)
include htr

theorem leads_self (h : S t) (hw : star ∈ t) : Leads star S t t :=
  ⟨h, .inl rfl, fun v hv hc => by
    by_cases hvt : v = t
    · exact hvt ▸ .inr ⟨rfl, le_rfl⟩
    · exact .inl (length_lt_of_covers (hc.resolve_left hvt).1 (htr v hv) hw (htr t h) hvt hc)⟩

/-- **What comes first is the most specific**, when the name itself is not there. -/
theorem Leads.specific (h : Leads star S w t) (ht : ¬S t) :
    Specific star S w t := by
  have hne : w ≠ t := fun he => ht (he ▸ h.1)
  obtain ⟨hw, hp⟩ := h.wild hne
  refine ⟨h.1, .inr ⟨ht, hw, hp, fun v hv hvw hvp => ?_⟩⟩
  have hle := (h.2.2 v hv (.inr ⟨hvw, hvp⟩)).length_le
  rw [length_eq hvw (htr v hv), length_eq hw (htr w h.1)] at hle
  omega

/-- **Names may be added that the most specific name stands for**: what then comes first stands for the same. -/
theorem Leads.specific_of_added (hsub : ∀ v, S v → S' v) (htr' : Trailing star w)
    (h : Leads star S' w t) (hne : w ≠ t) (ht : ¬S t) (hm : Specific star S m w) : Specific star S m t := by
  obtain ⟨hw, hp⟩ := h.wild hne
  rcases hm with ⟨hm, rfl | ⟨_, hmw, hmp, hmax⟩⟩
  · have hl : Leads star S m t := ⟨hm, h.2.1, fun v hv => h.2.2 v (hsub v hv)⟩
    exact hl.specific htr ht
  have hmt : stem star m <+: t := Covers.trans_wild hw htr' (.inr ⟨hmw, hmp⟩) hp
  refine ⟨hm, .inr ⟨ht, hmw, hmt, fun v hv hvw hvt => hmax v hv hvw ?_⟩⟩
  -- a pattern for `t` that is not longer than `w` is one for `w`
  have hle := (h.2.2 v (hsub v hv) (.inr ⟨hvw, hvt⟩)).length_le
  rw [length_eq hvw (htr v hv), length_eq hw htr'] at hle
  have hpp := prefix_of_prefix_length_le hvt hp (by omega)
  rw [eq_stem_concat hw htr']
  exact hpp.trans (prefix_append _ _)

end

/-- **The first match in a sorted list comes first of all matches.** -/
theorem find?_sorted {r : β → β → Prop} {p : β → Bool} {l : List β} {x : β} (hs : l.Pairwise r)
    (hf : l.find? p = some x) : ∀ y ∈ l, p y = true → y = x ∨ r x y := by
  intro y hy hpy
  obtain ⟨_, as, bs, rfl, has⟩ := find?_eq_some_iff_append.1 hf
  rcases mem_append.1 hy with hy | hy
  · exact absurd hpy (by simpa using has y hy)
  · rcases mem_cons.1 hy with rfl | hy
    · exact .inl rfl
    · exact .inr ((pairwise_cons.1 (pairwise_append.1 hs).2.1).1 y hy)

end

end Wildcard
