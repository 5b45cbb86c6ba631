import Mathlib.Data.List.Chain
/-!
# Tiles — segments of the integers laid end to end

A list of things that each occupy an interval `lo x ..= hi x` tiles `[a, b)` when the first starts at `a`, each next one
right behind the one before, and the last ends just below `b`.  Every tile also meets `ok`.
-/
namespace Tiles

open List

variable {α : Type*} {lo hi : α → Int} {ok ok' : α → Prop}

def Tiled (lo hi : α → Int) (ok : α → Prop) : Int → List α → Int → Prop
  | a, [], b => a = b
  | a, x :: l, b => lo x = a ∧ ok x ∧ Tiled lo hi ok (hi x + 1) l b

@[simp] theorem tiled_nil : Tiled lo hi ok a [] b ↔ a = b := Iff.rfl

@[simp] theorem tiled_cons :
    Tiled lo hi ok a (x :: l) b ↔ lo x = a ∧ ok x ∧ Tiled lo hi ok (hi x + 1) l b := Iff.rfl

theorem tiled_append : ∀ {l m : List α} {a b : Int},
    Tiled lo hi ok a (l ++ m) b ↔ ∃ c, Tiled lo hi ok a l c ∧ Tiled lo hi ok c m b
  | [], m, a, b => by simp
  | x :: l, m, a, b => by
    simp only [cons_append, tiled_cons, tiled_append (l := l)]
    constructor
    · rintro ⟨hx, hok, c, hl, hm⟩
      exact ⟨c, ⟨hx, hok, hl⟩, hm⟩
    · rintro ⟨c, ⟨hx, hok, hl⟩, hm⟩
      exact ⟨hx, hok, c, hl, hm⟩

theorem tiled_concat : Tiled lo hi ok a (l ++ [x]) b ↔ Tiled lo hi ok a l (lo x) ∧ ok x ∧ hi x + 1 = b := by
  rw [tiled_append]
  constructor
  · rintro ⟨c, hl, rfl, hx, hb⟩
    exact ⟨hl, hx, hb⟩
  · rintro ⟨hl, hx, hb⟩
    exact ⟨lo x, hl, rfl, hx, hb⟩

theorem Tiled.append (hl : Tiled lo hi ok a l c) (hm : Tiled lo hi ok c m b) :
    Tiled lo hi ok a (l ++ m) b := tiled_append.2 ⟨c, hl, hm⟩

theorem Tiled.all : ∀ {l : List α} {a b : Int}, Tiled lo hi ok a l b → ∀ x ∈ l, ok x
  | [], _, _, _, x, hx => by simp at hx
  | y :: l, a, b, ⟨_, hy, h⟩, x, hx => by
    rcases mem_cons.1 hx with rfl | hx
    · exact hy
    · exact h.all x hx

theorem Tiled.imp : ∀ {l : List α} {a b : Int}, (∀ x ∈ l, ok x → ok' x) → Tiled lo hi ok a l b → Tiled lo hi ok' a l b
  | [], _, _, _, h => h
  | x :: l, _, _, hi, ⟨hx, hok, h⟩ => ⟨hx, hi x (by simp) hok, h.imp (forall_mem_cons.1 hi).2⟩

theorem Tiled.congr : ∀ {l l' : List α} {a b : Int},
    List.Forall₂ (fun x y => lo y = lo x ∧ hi y = hi x ∧ (ok x → ok' y)) l l' → Tiled lo hi ok a l b →
      Tiled lo hi ok' a l' b
  | [], _, _, _, .nil, h => h
  | x :: _, y :: l', _, b, .cons ⟨hlo, hhi, hok⟩ hl, ⟨hx, hk, h⟩ =>
    ⟨hlo.trans hx, hok hk, by rw [hhi]; exact h.congr hl⟩

theorem Tiled.dropWhile (q : α → Bool) (h : Tiled lo hi ok a l b) : ∃ a', Tiled lo hi ok a' (l.dropWhile q) b := by
  rw [← takeWhile_append_dropWhile (p := q) (l := l), tiled_append] at h
  obtain ⟨a', _, h⟩ := h
  exact ⟨a', h⟩

theorem Tiled.isChain : ∀ {l : List α} {a b : Int}, Tiled lo hi ok a l b → l.IsChain (fun x y => lo y = hi x + 1)
  | [], _, _, _ => isChain_nil
  | [x], _, _, _ => isChain_singleton x
  | _ :: _ :: _, _, _, ⟨_, _, h⟩ => isChain_cons_cons.2 ⟨h.1, h.isChain⟩

theorem Tiled.le (hok : ∀ x, ok x → lo x ≤ hi x + 1) : ∀ {l : List α} {a b : Int}, Tiled lo hi ok a l b → a ≤ b
  | [], _, _, h => Int.le_of_eq h
  | x :: l, a, b, ⟨hx, hk, h⟩ => by
    have h1 := hok x hk
    have h2 := h.le hok
    omega

theorem Tiled.mem_bounds (hok : ∀ x, ok x → lo x ≤ hi x + 1) :
    ∀ {l : List α} {a b : Int}, Tiled lo hi ok a l b → ∀ x ∈ l, a ≤ lo x ∧ hi x < b
  | [], _, _, _, x, hx => by simp at hx
  | y :: l, a, b, ⟨hy, hk, h⟩, x, hx => by
    have h1 := hok y hk
    rcases mem_cons.1 hx with rfl | hx
    · have h2 := h.le hok
      omega
    · have h2 := h.mem_bounds hok x hx
      omega

end Tiles
