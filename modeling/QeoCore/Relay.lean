import Mathlib.Data.List.Basic
/-!
# Relay — a message handed on from one member of a list to the next

`f x m` is what the member `x` becomes on the message `m`, and the message as `x` leaves it.  Where members change a
message only one way (`r`), they are independent if nobody changes it.
-/
namespace Relay

open List

variable {α μ : Type*} {f : α → μ → α × μ} {r : μ → μ → Prop}

def relay (f : α → μ → α × μ) : List α → μ → List α × μ
  | [], m => ([], m)
  | x :: l, m =>
    let y := f x m
    let rest := relay f l y.2
    (y.1 :: rest.1, rest.2)

def Independent (f : α → μ → α × μ) (l : List α) (m : μ) : Prop :=
  (relay f l m).1 = l.map fun x => (f x m).1

theorem relay_concat (f : α → μ → α × μ) (q : α) : ∀ (l : List α) (m : μ),
    (relay f (l ++ [q]) m).1 = (relay f l m).1 ++ [(f q (relay f l m).2).1]
  | [], m => rfl
  | x :: l, m => by
    simp only [relay, cons_append]
    rw [relay_concat f q l (f x m).2]

theorem relay_of_kept : ∀ {l : List α} {m : μ}, (∀ x ∈ l, (f x m).2 = m) →
    relay f l m = (l.map fun x => (f x m).1, m)
  | [], m, _ => rfl
  | x :: l, m, h => by
    have hx : (f x m).2 = m := h x (by simp)
    have hl := relay_of_kept (forall_mem_cons.1 h).2
    simp [relay, hx, hl]

theorem relay_message (hr : ∀ a b c, r a b → r b c → r a c) (hstep : ∀ x m, (f x m).2 = m ∨ r m (f x m).2) :
    ∀ (l : List α) (m : μ), (∀ x ∈ l, (f x m).2 = m) ∨ r m (relay f l m).2
  | [], m => .inl nofun
  | x :: l, m => by
    rcases hstep x m with hx | hx
    · rcases relay_message hr hstep l m with hl | hl
      · refine .inl fun y hy => ?_
        rcases mem_cons.1 hy with rfl | hy
        · exact hx
        · exact hl y hy
      · exact .inr (by simpa only [relay, hx] using hl)
    · rcases relay_message hr hstep l (f x m).2 with hl | hl
      · refine .inr ?_
        simp only [relay]
        rw [relay_of_kept hl]
        exact hx
      · exact .inr (hr _ _ _ hx hl)

/-- **Whoever comes next is independent just when nobody has changed the message**, if every change shows to someone. -/
theorem independent_iff (hr : ∀ a b c, r a b → r b c → r a c) (hstep : ∀ x m, (f x m).2 = m ∨ r m (f x m).2)
    (hshow : ∀ m', r m m' → ∃ q, (f q m').1 ≠ (f q m).1) (l : List α) :
    (∀ q, Independent f (l ++ [q]) m) ↔ ∀ x ∈ l, (f x m).2 = m := by
  constructor
  · intro h
    rcases relay_message hr hstep l m with hl | hl
    · exact hl
    obtain ⟨q, hq⟩ := hshow _ hl
    have hind := h q
    rw [Independent, relay_concat, map_append] at hind
    exact absurd (singleton_inj.1 (append_inj_right' hind rfl)) hq
  · intro h q
    rw [Independent, relay_concat, relay_of_kept h, map_append, map_singleton]

end Relay
