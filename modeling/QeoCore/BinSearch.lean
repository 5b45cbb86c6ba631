import Mathlib.Algebra.Group.Nat.Defs
import Mathlib.Data.List.Basic
import Mathlib.Order.Lattice
/-!
# BinSearch — a sorted list with binary search

`search ws w lo hi` looks for `w` at the positions `lo, …, hi - 1` of the sorted list `ws`.  It gives the position and
`true`, or the position at which `w` would stand and `false`.
-/
namespace BinSearch

open List Nat

variable {α : Type*} {ws : List α}

section
variable (ws : List α) (k : Nat)

def insertAt (w : α) : List α := ws.take k ++ w :: ws.drop k

def removeAt : List α := ws.take k ++ ws.drop (k + 1)

theorem removeAt_sublist : (removeAt ws k).Sublist ws := by
  have h := (List.Sublist.refl (ws.take k)).append (drop_sublist_drop_left ws (le_succ k))
  rwa [take_append_drop] at h

end

theorem mem_insertAt : v ∈ insertAt ws k w ↔ v = w ∨ v ∈ ws := by
  unfold insertAt
  conv_rhs => rw [← take_append_drop k ws]
  rw [mem_append, mem_append, mem_cons]
  tauto

variable [LinearOrder α]

def search (ws : List α) (w : α) (lo hi : Nat) : Nat × Bool :=
  if lo < hi then
    match ws[lo + (hi - 1 - lo) / 2]? with
    | none => (lo, false)
    | some v =>
      if w < v then search ws w lo (lo + (hi - 1 - lo) / 2)
      else if v < w then search ws w (lo + (hi - 1 - lo) / 2 + 1) hi
      else (lo + (hi - 1 - lo) / 2, true)
  else (lo, false)
termination_by hi - lo
decreasing_by all_goals omega

structure Between (ws : List α) (w : α) (p q : Nat) : Prop where
  before : ∀ i v, ws[i]? = some v → i < p → v < w
  after : ∀ i v, ws[i]? = some v → q ≤ i → w < v

theorem getElem?_lt (hs : ws.Pairwise (· < ·)) {i j : Nat} (hi : ws[i]? = some u)
    (hj : ws[j]? = some v) (hij : i < j) : u < v := by
  obtain ⟨hi', rfl⟩ := List.getElem?_eq_some_iff.1 hi
  obtain ⟨hj', rfl⟩ := List.getElem?_eq_some_iff.1 hj
  exact pairwise_iff_getElem.1 hs i j hi' hj' hij

/-- **The search finds `w` where it is, and else the one place that keeps the list sorted.** -/
theorem search_spec (hs : ws.Pairwise (· < ·)) (lo hi : Nat) (hh : hi ≤ ws.length)
    (hlo : lo ≤ hi) (hb : Between ws w lo hi) :
    (∀ p, search ws w lo hi = (p, true) → ws[p]? = some w) ∧
      (∀ p, search ws w lo hi = (p, false) → p ≤ ws.length ∧ Between ws w p p) := by
  fun_induction search ws w lo hi with
  | case1 lo hi hlt hnone =>
    rw [getElem?_eq_none_iff] at hnone
    omega
  | case2 lo hi hlt v hv hwv ih =>
    apply ih (by omega) (by omega)
    constructor
    · exact hb.before
    intro i u hu hle
    rcases Nat.lt_or_eq_of_le hle with hlt' | rfl
    · exact hwv.trans (getElem?_lt hs hv hu hlt')
    · rw [hu] at hv
      exact (Option.some.inj hv) ▸ hwv
  | case3 lo hi hlt v hv hwv hvw ih =>
    apply ih hh (by omega)
    constructor
    · intro i u hu hle
      rcases Nat.lt_or_eq_of_le (Nat.le_of_lt_succ hle) with hlt' | rfl
      · exact (getElem?_lt hs hu hv hlt').trans hvw
      · rw [hu] at hv
        exact (Option.some.inj hv) ▸ hvw
    · exact hb.after
  | case4 lo hi hlt v hv hwv hvw =>
    have hw : v = w := le_antisymm (not_lt.1 hwv) (not_lt.1 hvw)
    subst hw
    constructor
    · intro p hp
      cases hp
      exact hv
    · intro p hp
      cases hp
  | case5 lo hi hlt =>
    constructor
    · intro p hp
      cases hp
    intro p hp
    cases hp
    obtain rfl : lo = hi := by omega
    exact ⟨by omega, hb⟩

theorem between_nil (ws : List α) (w : α) : Between ws w 0 ws.length where
  before := nofun
  after := fun i v hv hi => by
    rw [getElem?_eq_none hi] at hv
    cases hv

def lookup (ws : List α) (w : α) : Nat × Bool := search ws w 0 ws.length

section
variable (hs : ws.Pairwise (· < ·))
include hs

theorem lookup_spec : (∀ k, lookup ws w = (k, true) → ws[k]? = some w) ∧
    ∀ k, lookup ws w = (k, false) → k ≤ ws.length ∧ Between ws w k k :=
  search_spec hs 0 ws.length (Nat.le_refl _) (Nat.zero_le _) (between_nil ws w)

theorem lookup_true (h : lookup ws w = (k, true)) : ∃ as bs, ws = as ++ w :: bs ∧ removeAt ws k = as ++ bs := by
  obtain ⟨hlt, hw⟩ := List.getElem?_eq_some_iff.1 ((lookup_spec hs).1 k h)
  refine ⟨ws.take k, ws.drop (k + 1), ?_, rfl⟩
  rw [← hw, ← drop_eq_getElem_cons hlt, take_append_drop]

theorem lookup_false (h : lookup ws w = (k, false)) : (∀ v ∈ ws.take k, v < w) ∧ ∀ v ∈ ws.drop k, w < v := by
  obtain ⟨-, hb⟩ := (lookup_spec hs).2 k h
  constructor
  · intro v hv
    obtain ⟨i, hi, rfl⟩ := mem_take_iff_getElem.1 hv
    exact hb.before i _ (getElem?_eq_getElem _) (by omega)
  · intro v hv
    obtain ⟨i, hi, rfl⟩ := mem_drop_iff_getElem.1 hv
    exact hb.after (k + i) _ (getElem?_eq_getElem _) (le_add_right _ _)

theorem mem_of_lookup_true
    (h : lookup ws w = (k, true)) : v ∈ removeAt ws k ↔ v ∈ ws ∧ v ≠ w := by
  obtain ⟨as, bs, rfl, hr⟩ := lookup_true hs h
  obtain ⟨-, hb, hab⟩ := pairwise_append.1 hs
  rw [hr, mem_append, mem_append, mem_cons]
  constructor
  · rintro (hv | hv)
    · exact ⟨.inl hv, (hab v hv w mem_cons_self).ne⟩
    · exact ⟨.inr (.inr hv), ((pairwise_cons.1 hb).1 v hv).ne'⟩
  rintro ⟨hv | rfl | hv, hne⟩
  · exact .inl hv
  · exact absurd rfl hne
  · exact .inr hv

theorem not_mem_of_lookup_false (h : lookup ws w = (k, false)) : w ∉ ws := by
  obtain ⟨hb, ha⟩ := lookup_false hs h
  rw [← take_append_drop k ws, mem_append]
  rintro (hm | hm)
  · exact lt_irrefl w (hb w hm)
  · exact lt_irrefl w (ha w hm)

theorem pairwise_insertAt
    (h : lookup ws w = (k, false)) : (insertAt ws k w).Pairwise (· < ·) := by
  obtain ⟨hb, ha⟩ := lookup_false hs h
  refine pairwise_append.2 ⟨hs.sublist (take_sublist _ _),
    pairwise_cons.2 ⟨ha, hs.sublist (drop_sublist _ _)⟩, fun u hu v hv => ?_⟩
  rcases mem_cons.1 hv with rfl | hv
  · exact hb u hu
  · exact (hb u hu).trans (ha v hv)

end

end BinSearch
