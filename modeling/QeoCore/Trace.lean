import Mathlib.Algebra.Group.Int.Defs
import Mathlib.Algebra.Group.Nat.Defs
import Mathlib.Data.List.Basic
/-!
# Trace — runs of a partial step function

A step may have no result (`none`), and then the run goes no further.  `ok` restricts the steps: a run of
`Run step ok s0 es s` takes the events `es`, each of them `ok` in the state it meets.
-/
namespace Trace

variable {σ ε : Type*} {step : σ → ε → Option σ} {ok ok' : σ → ε → Prop} {s0 : σ}

/-- The events `es`, each `ok`, lead from `s0` to a state. -/
inductive Run (step : σ → ε → Option σ) (ok : σ → ε → Prop) (s0 : σ) : List ε → σ → Prop
  | nil : Run step ok s0 [] s0
  | snoc {es : List ε} {s s' : σ} {e : ε} :
    Run step ok s0 es s → ok s e → step s e = some s' → Run step ok s0 (es ++ [e]) s'

theorem Run.invariant (Inv : List ε → σ → Prop) (h0 : Inv [] s0)
    (hstep : ∀ es s e s', Inv es s → ok s e → step s e = some s' → Inv (es ++ [e]) s') :
    ∀ {es s}, Run step ok s0 es s → Inv es s
  | _, _, .nil => h0
  | _, _, .snoc h hok hs => hstep _ _ _ _ (h.invariant Inv h0 hstep) hok hs

/-- Takes the events one by one, for as long as they are `ok` and have a result. -/
def exec (step : σ → ε → Option σ) (ok : σ → ε → Prop) [∀ s e, Decidable (ok s e)] : σ → List ε → Option σ
  | s, [] => some s
  | s, e :: es => if ok s e then (step s e).bind fun s' => exec step ok s' es else none

theorem Run.of_exec_from [∀ s e, Decidable (ok s e)] :
    ∀ {es pre : List ε} {s s' : σ}, Run step ok s0 pre s → exec step ok s es = some s' →
      Run step ok s0 (pre ++ es) s'
  | [], pre, s, s', hr, h => by
    obtain rfl : s = s' := Option.some.inj h
    rw [List.append_nil]
    exact hr
  | e :: es, pre, s, s', hr, h => by
    unfold exec at h
    split at h
    · obtain ⟨t, ht, h⟩ := Option.bind_eq_some_iff.1 h
      have := Run.of_exec_from (hr.snoc ‹_› ht) h
      rwa [List.append_assoc] at this
    · cases h

theorem Run.of_exec [∀ s e, Decidable (ok s e)] (h : exec step ok s0 es = some s) :
    Run step ok s0 es s := Run.of_exec_from .nil h

theorem Run.of_isSome [∀ s e, Decidable (ok s e)] (h : (exec step ok s0 es).isSome := by decide) :
    Run step ok s0 es ((exec step ok s0 es).get h) := Run.of_exec (Option.eq_some_of_isSome h)

end Trace
