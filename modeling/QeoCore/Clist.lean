import Mathlib.Algebra.Group.Int.Defs
import Mathlib.Algebra.Group.Nat.Defs
import Mathlib.Data.List.Basic
/-!
# Clist — change lists (rtps_priv.h, rtps_clist.c)

The list of cache changes a proxy keeps, on either side: `CCLIST` with its nodes `CCREF`.  A node is a sample or a range
of sequence numbers that carry no sample.

Sequence numbers are integers: the two words count as one signed 64-bit number.  The successor of the greatest one
overflows `high`, which has no meaning in C, so nothing is said about it.  Allocation succeeds.
-/
namespace Qeo.Rtps

inductive ChangeState where
  | new | requested
  | unsent | underway | unacked | acked
  | missing | received | lost
  deriving DecidableEq

inductive Entry where
  | sample (snr : Int)
  | range (first last : Int)
  deriving DecidableEq

/-- `CCREF`.  `addr` is the node's address where something points at it (`ρ = Unit` where nothing does). -/
structure Ccref (ρ : Type) where
  addr : ρ
  state : ChangeState
  ackReq : Bool
  /-- The sample has a fragmentation context. -/
  fragments : Bool
  u : Entry
  deriving DecidableEq

structure Cclist (ρ : Type) where
  nodes : List (Ccref ρ)
  nchanges : Nat
  deriving DecidableEq

variable {ρ : Type}

namespace Ccref

section
variable (rp : Ccref ρ)

def relevant : Bool :=
  match rp.u with
  | .sample _ => true
  | .range _ _ => false

def first : Int :=
  match rp.u with
  | .sample s => s
  | .range a _ => a

def last : Int :=
  match rp.u with
  | .sample s => s
  | .range _ b => b

def gap (r : ρ) (first last : Int) (state : ChangeState) : Ccref ρ :=
  ⟨r, state, false, false, .range first last⟩

def setFirst (first : Int) : Ccref ρ := { rp with u := .range first rp.last }

def setLast (last : Int) : Ccref ρ := { rp with u := .range rp.first last }

end

variable {rp : Ccref ρ} {s a b : Int}

theorem first_of_sample (h : rp.u = .sample s) : rp.first = s := by simp only [first, h]
theorem last_of_sample (h : rp.u = .sample s) : rp.last = s := by simp only [last, h]
section
variable (h : rp.u = .range a b)
include h

theorem first_of_range : rp.first = a := by simp only [first, h]
theorem last_of_range : rp.last = b := by simp only [last, h]

theorem setFirst_of_range (x : Int) : rp.setFirst x = { rp with u := .range x b } := by
  rw [setFirst, last_of_range h]

theorem setLast_of_range (x : Int) : rp.setLast x = { rp with u := .range a x } := by
  rw [setLast, first_of_range h]

end

theorem exists_range (h : rp.relevant = false) : ∃ a b, rp.u = .range a b := by
  unfold relevant at h
  split at h
  · cases h
  · exact ⟨_, _, ‹_›⟩

theorem exists_sample (h : rp.relevant = true) : ∃ s, rp.u = .sample s := by
  unfold relevant at h
  split at h
  · exact ⟨_, ‹_›⟩
  · cases h

theorem relevant_of_range (h : rp.u = .range a b) : rp.relevant = false := by simp only [relevant, h]

theorem relevant_of_sample (h : rp.u = .sample s) : rp.relevant = true := by simp only [relevant, h]

end Ccref

namespace Cclist

def empty : Cclist ρ := ⟨[], 0⟩

section
variable (list : Cclist ρ) (r : ρ) (first last : Int)

def addGapTail (state : ChangeState) : Cclist ρ :=
  match list.nodes.getLast? with
  | some xrp =>
    if xrp.relevant = false ∧ xrp.state = state then ⟨list.nodes.dropLast ++ [xrp.setLast last], list.nchanges⟩
    else ⟨list.nodes ++ [.gap r first last state], list.nchanges + 1⟩
  | none => ⟨list.nodes ++ [.gap r first last state], list.nchanges + 1⟩

def addGapHead (state : ChangeState) : Cclist ρ :=
  match list.nodes with
  | xrp :: rest =>
    if xrp.relevant = false ∧ xrp.state = state then ⟨xrp.setFirst first :: rest, list.nchanges⟩
    else ⟨.gap r first last state :: list.nodes, list.nchanges + 1⟩
  | [] => ⟨[.gap r first last state], list.nchanges + 1⟩

def ccrefAddGap (tail : Bool) (state : ChangeState) : Cclist ρ :=
  if tail then list.addGapTail r first last state else list.addGapHead r first last state

theorem addGapTail_cases (state : ChangeState) :
    (∃ init x a b, list.nodes = init ++ [x] ∧ x.u = .range a b ∧ x.state = state ∧
      list.addGapTail r first last state = ⟨init ++ [{ x with u := .range a last }], list.nchanges⟩) ∨
    list.addGapTail r first last state = ⟨list.nodes ++ [.gap r first last state], list.nchanges + 1⟩ := by
  unfold addGapTail
  split
  · rename_i x hx
    split
    · rename_i h
      obtain ⟨init, hi⟩ := List.getLast?_eq_some_iff.1 hx
      obtain ⟨a, b, hu⟩ := Ccref.exists_range h.1
      exact .inl ⟨init, x, a, b, hi, hu, h.2, by rw [hi, List.dropLast_concat, Ccref.setLast_of_range hu]⟩
    · exact .inr rfl
  · exact .inr rfl

theorem addGapHead_cases (state : ChangeState) :
    (∃ x rest a b, list.nodes = x :: rest ∧ x.u = .range a b ∧ x.state = state ∧
      list.addGapHead r first last state = ⟨{ x with u := .range first b } :: rest, list.nchanges⟩) ∨
    list.addGapHead r first last state = ⟨.gap r first last state :: list.nodes, list.nchanges + 1⟩ := by
  unfold addGapHead
  split
  · rename_i x rest hx
    split
    · rename_i h
      obtain ⟨a, b, hu⟩ := Ccref.exists_range h.1
      exact .inl ⟨x, rest, a, b, hx, hu, h.2, by rw [Ccref.setFirst_of_range hu]⟩
    · exact .inr rfl
  · rename_i hx
    exact .inr (by rw [hx])

end

def Counted (list : Cclist ρ) : Prop := list.nchanges = list.nodes.length

end Cclist

theorem addGapTail_counted {list : Cclist ρ} (h : list.Counted) (x y : Int) (st : ChangeState) :
    (list.addGapTail r x y st).Counted := by
  unfold Cclist.Counted at h ⊢
  rcases list.addGapTail_cases r x y st with ⟨init, rp, c, e, hn, _, _, he⟩ | he
  · rw [he, h, hn]
    simp
  · rw [he]
    simp [h]

theorem addGapHead_counted {list : Cclist ρ} (h : list.Counted) (x y : Int) (st : ChangeState) :
    (list.addGapHead r x y st).Counted := by
  unfold Cclist.Counted at h ⊢
  rcases list.addGapHead_cases r x y st with ⟨rp, rest, c, e, hn, _, _, he⟩ | he
  · rw [he, h, hn]
    simp
  · rw [he]
    simp [h]

end Qeo.Rtps
