import Mathlib.Data.List.Nodup
import QeoCore.Trace
/-!
# Handles — the handle table of co/handle.c

The free handles are a ring through element 0, linked both ways; a live handle has both its links 0.
-/
namespace Qeo.Handles

open List Trace

structure Table where
  nelements : Nat
  next : Nat → Nat
  prev : Nat → Nat

open Table

namespace Table

variable (ht : Table)

@[simp]
def setNext (i v : Nat) : Table := { ht with next x := if x = i then v else ht.next x }

@[simp]
def setPrev (i v : Nat) : Table := { ht with prev x := if x = i then v else ht.prev x }

def link (i : Nat) : Table := (ht.setNext (i - 1) i).setPrev i (i - 1)

def linkFrom (i n : Nat) : Table := (range' i (n + 1 - i)).foldl link ht

def handleReset : Table :=
  ((ht.linkFrom 1 ht.nelements).setNext ht.nelements 0).setPrev 0 ht.nelements

/-- `ht` is what the allocated memory holds. -/
def handleInit (nhandles : Nat) (mem : Bool) : Option Table :=
  if nhandles < 2 ∨ 0xffff ≤ nhandles ∨ mem = false then none else some { ht with nelements := nhandles }.handleReset

def extendTo (n : Nat) : Table :=
  let nht := ht.linkFrom (ht.nelements + 2) n
  let nht := if nht.prev 0 ≠ 0 then
      (nht.setNext (nht.prev 0) (ht.nelements + 1)).setPrev (ht.nelements + 1) (nht.prev 0)
    else (nht.setNext 0 (ht.nelements + 1)).setPrev (ht.nelements + 1) 0
  { (nht.setPrev 0 n).setNext n 0 with nelements := n }

/-- The new table ends with element `n`: without a result, an element past it is written. -/
def handleExtend (nhandles : Nat) (mem : Bool) : Option (Table × Bool) :=
  let n := (ht.nelements + nhandles) % 2 ^ 32
  if n < 2 ∨ 0xffff ≤ n ∨ mem = false then some (ht, false)
  else if n ≤ ht.nelements then none
  else some (ht.extendTo n, true)

def handleAlloc : Table × Nat :=
  let index := ht.next 0
  if index = 0 then (ht, 0)
  else
    let np := ht.next index
    let pp := ht.prev index
    ((((ht.setNext pp np).setPrev np pp).setPrev index 0).setNext index 0, index)

/-- Without a result the handle is refused as invalid. -/
def handleFree (handle : Nat) : Option Table :=
  if handle = 0 ∨ ht.nelements < handle ∨ ht.next handle ≠ 0 ∨ ht.prev handle ≠ 0 then none
  else some ((((ht.setPrev handle (ht.prev 0)).setPrev 0 handle).setNext (ht.prev 0) handle).setNext handle 0)

theorem foldl_link (i k x : Nat) (hi : 0 < i) :
    ((range' i k).foldl link ht).nelements = ht.nelements ∧
    ((range' i k).foldl link ht).next x = (if i ≤ x + 1 ∧ x + 1 < i + k then x + 1 else ht.next x) ∧
    ((range' i k).foldl link ht).prev x = if i ≤ x ∧ x < i + k then x - 1 else ht.prev x := by
  induction k with
  | zero => grind
  | succ k ih =>
    rw [range'_1_concat, foldl_append, foldl_cons, foldl_nil, link]
    simp only [setNext, setPrev, ih, true_and]
    grind

end Table

/-- From `a` through `l` to `b`, each linked to the next and back. -/
def Linked (ht : Table) : Nat → List Nat → Nat → Prop
  | a, [], b => ht.next a = b ∧ ht.prev b = a
  | a, c :: l, b => (ht.next a = c ∧ ht.prev c = a) ∧ Linked ht c l b

variable {ht ht' : Table} {a b f n : Nat} {l r live : List Nat}

theorem Linked.prev_mem : ∀ {a l}, Linked ht a l b → ht.prev b ∈ a :: l
  | _, [], h => h.2 ▸ mem_cons_self
  | _, _ :: _, h => mem_cons_of_mem _ h.2.prev_mem

theorem Linked.congr : ∀ {a l}, Linked ht a l b → (∀ x ∈ a :: l, ht'.next x = ht.next x) →
    (∀ x ∈ b :: l, ht'.prev x = ht.prev x) → Linked ht' a l b
  | _, [], h, hn, hp => by simp_all [Linked]
  | _, _ :: _, h, hn, hp => ⟨by simp_all [Linked], h.2.congr (by simp_all) (by simp_all)⟩

/-- The ring grows at its end, by the segment of `f`. -/
theorem Linked.append (hf : ht'.next (ht.prev b) = f ∧ ht'.prev f = ht.prev b) (hr : Linked ht' f r b) :
    ∀ {a l}, Linked ht a l b → (a :: l).Nodup → (∀ x ∈ a :: l, x ≠ ht.prev b → ht'.next x = ht.next x) →
      (∀ x ∈ l, ht'.prev x = ht.prev x) → Linked ht' a (l ++ f :: r) b
  | _, [], h, _, _, _ => ⟨h.2 ▸ hf, hr⟩
  | a, c :: l, h, hnd, hn, hp => by
    have hne : a ≠ ht.prev b := fun heq => (nodup_cons.1 hnd).1 (heq ▸ h.2.prev_mem)
    refine ⟨?_, append hf hr h.2 (nodup_cons.1 hnd).2 (forall_mem_cons.1 hn).2
      (forall_mem_cons.1 hp).2⟩
    rw [hn a mem_cons_self hne, hp c mem_cons_self]
    exact h.1

theorem linked_range' (hn : ∀ x, a ≤ x → x < a + n → ht.next x = x + 1 ∧ ht.prev (x + 1) = x)
    (hlast : ht.next (a + n) = 0 ∧ ht.prev 0 = a + n) : Linked ht a (range' (a + 1) n) 0 := by
  induction n generalizing a with
  | zero => exact hlast
  | succ n ih =>
    refine ⟨hn a (by omega) (by omega), ih (fun x h1 h2 => hn x (by omega) (by omega)) ?_⟩
    rwa [Nat.add_assoc, Nat.add_comm 1]

/-- The free handles are those in the list `l`, in the order in which they are given out. -/
structure Keeps (ht : Table) (live l : List Nat) : Prop where
  ring : Linked ht 0 l 0
  nodup : l.Nodup
  mem_iff : ∀ h, h ∈ l ↔ 0 < h ∧ h ≤ ht.nelements ∧ h ∉ live
  idle : ∀ h ∈ live, 0 < h ∧ h ≤ ht.nelements ∧ ht.next h = 0 ∧ ht.prev h = 0

theorem Keeps.nodup_zero (h : Keeps ht live l) : (0 :: l).Nodup :=
  nodup_cons.2 ⟨fun h0 => absurd ((h.mem_iff 0).1 h0).1 (Nat.lt_irrefl 0), h.nodup⟩

theorem handleReset_nelements (ht : Table) : ht.handleReset.nelements = ht.nelements :=
  (ht.foldl_link 1 _ 0 Nat.one_pos).1

theorem keeps_handleReset (ht : Table) : Keeps ht.handleReset [] (range' 1 ht.nelements) where
  ring := by
    unfold handleReset linkFrom
    refine linked_range' (a := 0) (fun x _ hx => ?_) ?_
    all_goals
      simp only [setNext, setPrev, foldl_link ht 1 _ _ Nat.one_pos]
      grind
  nodup := nodup_range'
  mem_iff x := by
    rw [handleReset_nelements]
    simp
    omega
  idle _ hx := absurd hx not_mem_nil

theorem Linked.handleAlloc (h : Linked ht 0 l 0) : ht.handleAlloc.2 = l.headD 0 := by
  unfold Table.handleAlloc
  cases l <;> grind [Linked]

theorem Keeps.tail (h : Keeps ht live (a :: l)) : Keeps ht.handleAlloc.1 (a :: live) l := by
  obtain ⟨⟨⟨hnext, hprev⟩, hring⟩, hnd, hmem, hidle⟩ := h
  have ha : a ≠ 0 := by grind
  simp only [Table.handleAlloc, hnext, hprev, if_neg ha, setNext, setPrev]
  cases l with
  | nil => constructor <;> grind [Linked]
  | cons c l =>
    refine ⟨⟨?_, hring.2.congr ?_ ?_⟩, hnd.tail, ?_, ?_⟩
    all_goals grind [Linked]

theorem Keeps.concat (h : Keeps ht live l) (hb : b ∈ live) :
    ∃ ht', ht.handleFree b = some ht' ∧ Keeps ht' (live.filter (· != b)) (l ++ [b]) := by
  have h0 := h.nodup_zero
  obtain ⟨hring, hnd, hmem, hidle⟩ := h
  have hprev := hring.prev_mem
  refine ⟨_, if_neg (by grind), ?_⟩
  simp only [setNext, setPrev]
  refine ⟨.append ?_ ?_ hring h0 ?_ ?_, by grind, by grind, by grind⟩
  all_goals grind [Linked]

theorem Keeps.extendTo (h : Keeps ht live l) (hlt : ht.nelements < n) :
    Keeps (ht.extendTo n) live (l ++ range' (ht.nelements + 1) (n - ht.nelements)) := by
  have h0 := h.nodup_zero
  obtain ⟨hring, hnd, hmem, hidle⟩ := h
  have hprev := hring.prev_mem
  obtain ⟨k, rfl⟩ := Nat.exists_eq_add_of_lt hlt
  have hlink := fun x => ht.foldl_link (ht.nelements + 2) k x (Nat.succ_pos _)
  have hk : ht.nelements + k + 1 + 1 - (ht.nelements + 2) = k := by omega
  have hk' : ht.nelements + k + 1 - ht.nelements = k + 1 := by omega
  have hp0 := (hlink 0).2.2
  rw [if_neg (by omega)] at hp0
  simp only [extendTo, linkFrom, hk, hk', range'_succ, setNext, setPrev, hp0]
  split
  all_goals
    refine ⟨.append ?_ (linked_range' ?_ ?_) hring h0 ?_ ?_,
      nodup_append.2 ⟨hnd, nodup_range' (n := k + 1), by grind⟩, by grind, ?_⟩
    all_goals
      grind

structure State where
  ht : Table
  live : List Nat

inductive Event
  | alloc
  | free (handle : Nat)
  | extend (nhandles : Nat) (mem : Bool)

def step (s : State) : Event → Option State
  | .alloc =>
    let r := s.ht.handleAlloc
    some ⟨r.1, if r.2 = 0 then s.live else r.2 :: s.live⟩
  | .free handle => (s.ht.handleFree handle).map fun ht => ⟨ht, s.live.filter (· != handle)⟩
  | .extend nhandles mem => (s.ht.handleExtend nhandles mem).map fun r => ⟨r.1, s.live⟩

/-- Only live handles are freed, and a table grows, or its new size is refused as too small. -/
def Event.ok (s : State) : Event → Bool
  | .alloc => true
  | .free handle => s.live.contains handle
  | .extend nhandles _ =>
    let n := (s.ht.nelements + nhandles) % 2 ^ 32
    n < 2 || s.ht.nelements < n

theorem Keeps.step (h : Keeps s.ht s.live l) {e : Event} (hok : e.ok s) :
    ∃ s' l', step s e = some s' ∧ Keeps s'.ht s'.live l' := by
  cases e with
  | alloc =>
    refine ⟨⟨s.ht.handleAlloc.1, _⟩, l.tail, rfl, ?_⟩
    rw [h.ring.handleAlloc]
    cases l with
    | nil => simpa [Table.handleAlloc, h.ring.1] using h
    | cons a l => simpa [Nat.ne_of_gt ((h.mem_iff a).1 mem_cons_self).1] using h.tail
  | free handle =>
    obtain ⟨ht', hf, hk⟩ := h.concat (b := handle) (by simpa [Event.ok] using hok)
    exact ⟨_, _, by rw [Handles.step, hf]; rfl, hk⟩
  | extend nhandles mem =>
    simp only [Event.ok, Bool.or_eq_true, decide_eq_true_eq] at hok
    simp only [Handles.step, handleExtend]
    generalize (s.ht.nelements + nhandles) % 2 ^ 32 = n at *
    split
    · exact ⟨_, l, rfl, h⟩
    · rw [if_neg (by omega)]
      exact ⟨_, _, rfl, h.extendTo (by omega)⟩

/-- **A handle that is given out is a new one**, and none is only when all are live. -/
theorem alloc_of_run {raw : Table} (h0 : raw.handleInit n mem = some ht)
    (hr : Run step (fun s e => e.ok s) ⟨ht, []⟩ es s) :
    (∀ e : Event, e.ok s → (step s e).isSome) ∧
    (s.ht.handleAlloc.2 = 0 ↔ ∀ h, 0 < h → h ≤ s.ht.nelements → h ∈ s.live) ∧
    (s.ht.handleAlloc.2 ≠ 0 → s.ht.handleAlloc.2 ≤ s.ht.nelements ∧ s.ht.handleAlloc.2 ∉ s.live) := by
  obtain ⟨l, h⟩ : ∃ l, Keeps s.ht s.live l := by
    refine hr.invariant (fun _ s => ∃ l, Keeps s.ht s.live l) ?_ ?_
    · unfold Table.handleInit at h0
      split at h0
      · cases h0
      · cases h0
        exact ⟨_, keeps_handleReset _⟩
    · rintro es s e s' ⟨l, h⟩ hok hs
      obtain ⟨s'', l', hs', h'⟩ := h.step hok
      cases hs'.symm.trans hs
      exact ⟨l', h'⟩
  refine ⟨fun e hok => ?_, ?_⟩
  · obtain ⟨s', _, hs, _⟩ := h.step hok
    rw [hs]
    rfl
  · rw [h.ring.handleAlloc]
    have hmem := h.mem_iff
    cases l <;> grind

def blank : Table := ⟨0, fun _ => 0, fun _ => 0⟩

theorem alloc_freed : ∃ ht s, blank.handleInit 2 true = some ht ∧
    Run step (fun s e => e.ok s) ⟨ht, []⟩ [.alloc, .alloc, .extend 1 true, .alloc, .free 2] s ∧
    s.ht.handleAlloc.2 = 2 ∧ s.ht.handleAlloc.2 ∉ s.live :=
  ⟨_, _, rfl, Run.of_isSome, rfl, ((alloc_of_run (show blank.handleInit 2 true = some _ from rfl)
    Run.of_isSome).2.2 (by decide)).2⟩

/-- **A size that wraps round** is smaller than the table was, and the links of the new elements are written past its
end. -/
theorem extend_wraps : ∃ ht, blank.handleInit 10 true = some ht ∧ (ht.nelements + 4294967291) % 2 ^ 32 = 5 ∧
    5 < ht.nelements ∧ (step ⟨ht, []⟩ (.extend 4294967291 true)).isNone :=
  ⟨_, rfl, by rw [handleReset_nelements]; decide, by rw [handleReset_nelements]; decide,
    by simp [step, Table.handleExtend, handleReset_nelements]⟩

end Qeo.Handles
