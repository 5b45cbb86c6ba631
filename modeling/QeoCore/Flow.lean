import Mathlib.Algebra.Group.Int.Defs
import Mathlib.Algebra.Group.Nat.Defs
import Mathlib.Data.List.Basic
/-!
# Flow — machines that step or stop

A step leads to another state (`inl`) or stops with an outcome (`inr`).  `Leads step s t`: from `s` the machine gets to
`t`.  `Ends step s o`: from `s` it stops with `o`; a machine that goes on for ever ends with nothing.
-/
namespace Flow

variable {σ ω : Type*} {step : σ → σ ⊕ ω} {s t u : σ} {o o' : ω}

inductive Leads (step : σ → σ ⊕ ω) : σ → σ → Prop
  | refl (s : σ) : Leads step s s
  | head {s t u : σ} : step s = .inl t → Leads step t u → Leads step s u

def Ends (step : σ → σ ⊕ ω) (s : σ) (o : ω) : Prop := ∃ t, Leads step s t ∧ step t = .inr o

/-- At most `fuel` steps; `none` when the machine has not stopped by then. -/
def run (step : σ → σ ⊕ ω) : Nat → σ → Option ω
  | 0, _ => none
  | fuel + 1, s =>
    match step s with
    | .inl t => run step fuel t
    | .inr o => some o

theorem Leads.single (h : step s = .inl t) : Leads step s t := .head h (.refl t)

theorem Leads.trans (hst : Leads step s t) (htu : Leads step t u) : Leads step s u := by
  induction hst with
  | refl => exact htu
  | head h _ ih => exact .head h (ih htu)

theorem Ends.of_step (h : step s = .inr o) : Ends step s o := ⟨s, .refl s, h⟩

theorem ends_iff_of_step (h : step s = .inl t) : Ends step s o ↔ Ends step t o := by
  constructor
  · rintro ⟨u, hu, ho⟩
    cases hu with
    | refl => rw [h] at ho; cases ho
    | head h' hu =>
      obtain rfl := Sum.inl.inj (h.symm.trans h')
      exact ⟨u, hu, ho⟩
  · rintro ⟨u, hu, ho⟩
    exact ⟨u, .head h hu, ho⟩

theorem Leads.ends_iff (h : Leads step s t) : Ends step s o ↔ Ends step t o := by
  induction h with
  | refl => rfl
  | head h _ ih => rw [ends_iff_of_step h, ih]

theorem Ends.unique (h : Ends step s o) (h' : Ends step s o') : o = o' := by
  obtain ⟨t, ht, ho⟩ := h
  obtain ⟨u, hu, ho'⟩ := (ht.ends_iff).1 h'
  cases hu with
  | refl => exact Sum.inr.inj (ho.symm.trans ho')
  | head h _ => rw [ho] at h; cases h

theorem ends_of_run : ∀ {fuel : Nat} {s : σ}, run step fuel s = some o → Ends step s o
  | 0, _, h => by cases h
  | fuel + 1, s, h => by
    unfold run at h
    split at h
    · exact (ends_iff_of_step ‹_›).2 (ends_of_run h)
    · cases h
      exact Ends.of_step ‹_›

theorem run_of_ends (h : Ends step s o) : ∃ fuel, run step fuel s = some o := by
  obtain ⟨t, ht, ho⟩ := h
  induction ht with
  | refl => exact ⟨1, by simp only [run, ho]⟩
  | head h _ ih =>
    obtain ⟨fuel, hf⟩ := ih ho
    exact ⟨fuel + 1, by simp only [run, h, hf]⟩

end Flow
