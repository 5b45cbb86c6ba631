import Mathlib.Algebra.Group.Nat.Defs
import Mathlib.Data.List.Basic
/-!
# DoWhile — a loop that tests after its body

`doWhile body again fuel k s` runs `body k`, `body (k + 1)`, … and stops after the first round whose result `again`
refuses.  It is `none` when a round has no result and when `fuel` rounds were not enough.
-/
namespace DoWhile

variable {σ : Type*} {body : Nat → σ → Option σ} {again : σ → Bool}

def doWhile (body : Nat → σ → Option σ) (again : σ → Bool) : Nat → Nat → σ → Option σ
  | 0, _, _ => none
  | fuel + 1, k, s => (body k s).bind fun s' => if again s' then doWhile body again fuel (k + 1) s' else some s'

/-- The last round: it started in a state that every round keeps, and `again` refused its result. -/
theorem doWhile_last (I : σ → Prop) (hbody : ∀ k s s', I s → body k s = some s' → again s' = true → I s') :
    ∀ {fuel k s t}, I s → doWhile body again fuel k s = some t → ∃ j u, I u ∧ body j u = some t ∧ again t = false
  | 0, _, _, _, _, h => by cases h
  | fuel + 1, k, s, t, hs, h => by
    obtain ⟨s', hb, h⟩ := Option.bind_eq_some_iff.1 h
    split at h
    · exact doWhile_last I hbody (hbody k s s' hs hb ‹_›) h
    · obtain rfl : s' = t := Option.some.inj h
      exact ⟨k, s, hs, hb, by simpa using ‹¬ again s' = true›⟩

theorem doWhile_inv (I : σ → Prop) (hbody : ∀ k s s', I s → body k s = some s' → I s')
    (hs : I s) (h : doWhile body again fuel k s = some t) : I t := by
  obtain ⟨j, u, hu, hb, -⟩ := doWhile_last I (fun k s s' hs hb _ => hbody k s s' hs hb) hs h
  exact hbody j u t hu hb

/-- A loop whose rounds have a result and lower a measure whenever they ask for another one ends. -/
theorem doWhile_ends (I : σ → Prop) (m : σ → Nat)
    (hbody : ∀ k s, I s → ∃ s', body k s = some s' ∧ (again s' = true → I s' ∧ m s' < m s)) :
    ∀ {fuel k s}, I s → m s < fuel → ∃ t, doWhile body again fuel k s = some t
  | 0, _, _, _, hm => absurd hm (Nat.not_lt_zero _)
  | fuel + 1, k, s, hs, hm => by
    obtain ⟨s', hb, hs'⟩ := hbody k s hs
    unfold doWhile
    rw [hb, Option.bind_some]
    split
    · obtain ⟨hi, hlt⟩ := hs' ‹_›
      exact doWhile_ends I m hbody hi (by omega)
    · exact ⟨s', rfl⟩

theorem doWhile_stuck (hbody : ∀ k, body k s = some s) (ha : again s = true) :
    ∀ fuel k, doWhile body again fuel k s = none
  | 0, _ => rfl
  | fuel + 1, k => by
    unfold doWhile
    rw [hbody k, Option.bind_some, if_pos ha]
    exact doWhile_stuck hbody ha fuel (k + 1)

end DoWhile
