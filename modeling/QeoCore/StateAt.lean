import QeoCore.Clist
import QeoCore.Tiles
/-!
# StateAt — what a change list says of a sequence number

What a change list means does not depend on where the nodes are cut: it says of each sequence number whether it is a
sample's and in what state it is.
-/
namespace Qeo.Rtps

open Tiles

variable {ρ : Type} {a b s : Int} {l m : List (Ccref ρ)} {e : Bool × ChangeState} {rp : Ccref ρ}

abbrev Contiguous (a : Int) (l : List (Ccref ρ)) (b : Int) : Prop :=
  Tiled Ccref.first Ccref.last (fun rp => rp.first ≤ rp.last) a l b

abbrev Ccref.Holds (rp : Ccref ρ) (s : Int) : Prop := rp.first ≤ s ∧ s ≤ rp.last

def stateAt : List (Ccref ρ) → Int → Option (Bool × ChangeState)
  | [], _ => none
  | rp :: l, s => if rp.Holds s then some (rp.relevant, rp.state) else stateAt l s

theorem stateAt_of_holds (h : rp.Holds s) : stateAt (rp :: l) s = some (rp.relevant, rp.state) := if_pos h

theorem stateAt_of_not_holds (h : ¬ rp.Holds s) : stateAt (rp :: l) s = stateAt l s := if_neg h

theorem stateAt_range (hu : rp.u = .range x y) (l : List (Ccref ρ)) (s : Int) :
    stateAt (rp :: l) s = if x ≤ s ∧ s ≤ y then some (false, rp.state) else stateAt l s := by
  obtain ⟨r, st, q, f, u⟩ := rp
  subst hu
  rfl

theorem stateAt_append : ∀ (l m : List (Ccref ρ)) (s : Int), stateAt (l ++ m) s = (stateAt l s).or (stateAt m s)
  | [], _, _ => rfl
  | rp :: l, m, s => by
    by_cases h : rp.Holds s
    · rw [List.cons_append, stateAt_of_holds h, stateAt_of_holds h, Option.some_or]
    · rw [List.cons_append, stateAt_of_not_holds h, stateAt_of_not_holds h, stateAt_append l m s]

theorem exists_of_stateAt : ∀ {l : List (Ccref ρ)}, stateAt l s = some e →
    ∃ rp ∈ l, rp.Holds s ∧ e = (rp.relevant, rp.state)
  | rp :: l, h => by
    by_cases hs : rp.Holds s
    · rw [stateAt_of_holds hs, Option.some.injEq] at h
      exact ⟨rp, by simp, hs, h.symm⟩
    · rw [stateAt_of_not_holds hs] at h
      obtain ⟨rp', hm, h⟩ := exists_of_stateAt h
      exact ⟨rp', List.mem_cons_of_mem rp hm, h⟩

theorem stateAt_eq_none (h : ∀ rp ∈ l, ¬ rp.Holds s) : stateAt l s = none := by
  cases he : stateAt l s with
  | none => rfl
  | some e =>
    obtain ⟨rp, hm, hs, _⟩ := exists_of_stateAt he
    exact absurd hs (h rp hm)

namespace Contiguous

theorem bounds (h : Contiguous a l b) (hm : rp ∈ l) : a ≤ rp.first ∧ rp.last < b :=
  Tiled.mem_bounds (fun _ hx => by omega) h rp hm

theorem outside (h : Contiguous a l b) (hs : s < a ∨ b ≤ s) : stateAt l s = none := by
  apply stateAt_eq_none
  rintro rp hm ⟨h1, h2⟩
  have := h.bounds hm
  omega

theorem inside : ∀ {l : List (Ccref ρ)} {a : Int}, Contiguous a l b → a ≤ s → s < b → ∃ e, stateAt l s = some e
  | [], a, h, h1, h2 => by
    have : a = b := h
    omega
  | rp :: l, a, ⟨hf, _, h⟩, h1, h2 => by
    by_cases hs : rp.Holds s
    · exact ⟨_, stateAt_of_holds hs⟩
    · rw [stateAt_of_not_holds hs]
      exact inside h (by omega) h2

theorem stateAt_of_mem : ∀ {l : List (Ccref ρ)} {a : Int}, Contiguous a l b → ∀ {rp : Ccref ρ}, rp ∈ l → rp.Holds s →
    stateAt l s = some (rp.relevant, rp.state)
  | x :: l, a, ⟨hf, hx, h⟩, rp, hm, hs => by
    rcases List.mem_cons.1 hm with rfl | hm
    · exact stateAt_of_holds hs
    · have hb : x.last + 1 ≤ rp.first ∧ rp.last < b := bounds h hm
      rw [stateAt_of_not_holds (by omega)]
      exact stateAt_of_mem h hm hs

/-- A node is replaced by parts of it, the rest by another rest: what was said of each number and what is said now are
related by `R` if they are in the parts and in the rest. -/
theorem rel_cons {R : Int → Bool × ChangeState → Bool × ChangeState → Prop} {parts rest rest' : List (Ccref ρ)}
    (hparts : Contiguous rp.first parts (rp.last + 1)) (hrest : Contiguous (rp.last + 1) rest c)
    (hrest' : Contiguous (rp.last + 1) rest' c')
    (hR : ∀ y ∈ parts, ∀ s, y.Holds s → R s (rp.relevant, rp.state) (y.relevant, y.state))
    (h : ∀ s, rp.last < s → Option.Rel (R s) (stateAt rest s) (stateAt rest' s)) (s : Int) :
    Option.Rel (R s) (stateAt (rp :: rest) s) (stateAt (parts ++ rest') s) := by
  rw [stateAt_append]
  by_cases hs : rp.Holds s
  · obtain ⟨e, he⟩ := hparts.inside (s := s) hs.1 (Int.lt_add_one_iff.2 hs.2)
    rw [stateAt_of_holds hs, he]
    obtain ⟨y, hm, hy, rfl⟩ := exists_of_stateAt he
    exact .some (hR y hm s hy)
  · rw [stateAt_of_not_holds hs, hparts.outside (by omega)]
    by_cases hlt : rp.last < s
    · exact h s hlt
    · rw [hrest.outside (.inl (by omega)), hrest'.outside (.inl (by omega))]
      exact .none

end Contiguous

end Qeo.Rtps
