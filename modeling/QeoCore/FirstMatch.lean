import Mathlib.Algebra.Group.Nat.Defs
import Mathlib.Data.List.Induction
import Mathlib.Data.List.Nodup
/-!
# FirstMatch — what a scan of a list finds, and moving entries

A scan takes the first entry that satisfies a test.  Entries can be moved: one to the tail, or all that satisfy a test
to the head, one after another.
-/
namespace FirstMatch

open List

variable {α : Type*} {p q : α → Bool} {l l1 l2 : List α} {a b : α}

/-! ## Precedence -/

def Precedes (l : List α) (a b : α) : Prop := List.Sublist [a, b] l

theorem Precedes.mem_left (h : Precedes l a b) : a ∈ l := h.subset mem_cons_self

theorem Precedes.mem_right (h : Precedes l a b) : b ∈ l := h.subset (mem_cons_of_mem _ mem_cons_self)

theorem precedes_cons : Precedes (c :: l) a b ↔ (a = c ∧ b ∈ l) ∨ Precedes l a b := by
  constructor
  · intro h
    cases h with
    | cons _ h => exact .inr h
    | cons_cons _ h => exact .inl ⟨rfl, singleton_sublist.1 h⟩
  · rintro (⟨rfl, hb⟩ | h)
    · exact (singleton_sublist.2 hb).cons_cons a
    · exact h.cons c

theorem precedes_append : Precedes (l1 ++ l2) a b ↔ Precedes l1 a b ∨ (a ∈ l1 ∧ b ∈ l2) ∨ Precedes l2 a b := by
  induction l1 with
  | nil =>
    have hnil : ¬ Precedes [] a b := fun h => by cases h.mem_left
    simp [hnil]
  | cons c l1 ih =>
    rw [cons_append, precedes_cons, precedes_cons]
    grind

theorem precedes_reverse : Precedes l.reverse a b ↔ Precedes l b a := by
  unfold Precedes
  rw [← reverse_sublist, reverse_reverse]
  rfl

theorem precedes_filter : Precedes (l.filter p) a b ↔ Precedes l a b ∧ p a = true ∧ p b = true := by
  constructor
  · intro h
    exact ⟨h.trans filter_sublist, (mem_filter.1 h.mem_left).2, (mem_filter.1 h.mem_right).2⟩
  · rintro ⟨h, ha, hb⟩
    have hfilter := h.filter p
    rwa [filter_cons_of_pos ha, filter_cons_of_pos hb] at hfilter

theorem Precedes.asymm (hl : l.Nodup) (h : Precedes l a b) : ¬ Precedes l b a := by
  induction l with
  | nil => cases h.mem_left
  | cons c l ih =>
    obtain ⟨hc, hl⟩ := nodup_cons.1 hl
    rcases precedes_cons.1 h with ⟨rfl, hb⟩ | hab
    · intro h'
      rcases precedes_cons.1 h' with ⟨rfl, _⟩ | hba
      · exact hc hb
      · exact hc hba.mem_right
    · intro h'
      rcases precedes_cons.1 h' with ⟨rfl, _⟩ | hba
      · exact hc hab.mem_right
      · exact ih hl hab hba

theorem find?_eq_some_iff (hl : l.Nodup) :
    l.find? p = some a ↔ a ∈ l ∧ p a = true ∧ ∀ b ∈ l, p b = true → b ≠ a → Precedes l a b := by
  induction l with
  | nil => simp
  | cons c l ih =>
    obtain ⟨hc, hl⟩ := nodup_cons.1 hl
    by_cases hpc : p c = true
    · rw [find?_cons_of_pos hpc]
      constructor
      · intro h
        cases h
        refine ⟨mem_cons_self, hpc, fun b hb _ hne => precedes_cons.2 (.inl ⟨rfl, ?_⟩)⟩
        exact (mem_cons.1 hb).resolve_left hne
      · rintro ⟨ha, _, hfirst⟩
        by_contra hne
        have hca : c ≠ a := fun h => hne (congrArg some h)
        rcases precedes_cons.1 (hfirst c mem_cons_self hpc hca) with ⟨h, _⟩ | h
        · exact hca h.symm
        · exact hc h.mem_right
    rw [find?_cons_of_neg hpc, ih hl]
    constructor
    · rintro ⟨ha, hpa, hfirst⟩
      refine ⟨mem_cons_of_mem _ ha, hpa, fun b hb hpb hne => precedes_cons.2 (.inr ?_)⟩
      rcases mem_cons.1 hb with rfl | hb
      · exact absurd hpb hpc
      · exact hfirst b hb hpb hne
    · rintro ⟨ha, hpa, hfirst⟩
      rcases mem_cons.1 ha with rfl | hal
      · exact absurd hpa hpc
      refine ⟨hal, hpa, fun b hb hpb hne => ?_⟩
      rcases precedes_cons.1 (hfirst b (mem_cons_of_mem _ hb) hpb hne) with ⟨rfl, _⟩ | h
      · exact absurd hal hc
      · exact h

/-! ## Moving to the tail -/

def toTail (p : α → Bool) (l : List α) : List α :=
  match l.find? p with
  | none => l
  | some a => l.eraseP p ++ [a]

theorem find?_of_unique (ha : a ∈ l) (hp : p a = true) (h : ∀ b ∈ l, p b = true → b = a) : l.find? p = some a := by
  cases hf : l.find? p with
  | none => exact absurd hp (find?_eq_none.1 hf a ha)
  | some b => rw [h b (mem_of_find?_eq_some hf) (find?_some hf)]

theorem toTail_of_none (h : l.find? p = none) : toTail p l = l := by
  unfold toTail
  rw [h]

theorem toTail_of_some (h : l.find? p = some a) : toTail p l = l.eraseP p ++ [a] := by
  unfold toTail
  rw [h]

theorem toTail_perm : (toTail p l).Perm l := by
  cases h : l.find? p with
  | none => rw [toTail_of_none h]
  | some a =>
    obtain ⟨hpa, as, bs, rfl, has⟩ := find?_eq_some_iff_append.1 h
    have herase : (as ++ a :: bs).eraseP p = as ++ bs := by
      rw [eraseP_append_right _ (fun c hc => by simpa using has c hc), eraseP_cons_of_pos hpa]
    rw [toTail_of_some h, herase, append_assoc]
    exact (perm_append_singleton a bs).append_left as

theorem mem_toTail : b ∈ toTail p l ↔ b ∈ l := toTail_perm.mem_iff

theorem find?_eraseP (h : ∀ c, p c = true → q c = false) : (l.eraseP p).find? q = l.find? q := by
  induction l with
  | nil => rfl
  | cons c l ih =>
    by_cases hp : p c = true
    · rw [eraseP_cons_of_pos hp, find?_cons_of_neg (by rw [h c hp]; decide)]
    rw [eraseP_cons_of_neg hp]
    by_cases hq : q c = true
    · rw [find?_cons_of_pos hq, find?_cons_of_pos hq]
    · rw [find?_cons_of_neg hq, find?_cons_of_neg hq, ih]

theorem find?_toTail (h : ∀ c, p c = true → q c = false) : (toTail p l).find? q = l.find? q := by
  cases hf : l.find? p with
  | none => rw [toTail_of_none hf]
  | some a =>
    have ha : q a = false := h a (find?_some hf)
    rw [toTail_of_some hf, find?_append, find?_eraseP h]
    simp [ha]

theorem filter_eraseP_of_neg (h : ∀ a, l.find? p = some a → q a = false) : (l.eraseP p).filter q = l.filter q := by
  induction l with
  | nil => rfl
  | cons c l ih =>
    by_cases hp : p c = true
    · have hq : q c = false := h c (find?_cons_of_pos hp)
      rw [eraseP_cons_of_pos hp, filter_cons_of_neg (by rw [hq]; decide)]
    · rw [eraseP_cons_of_neg hp, filter_cons, filter_cons, ih fun a ha => h a (by rw [find?_cons_of_neg hp, ha])]

theorem filter_toTail_of_neg (h : ∀ a, l.find? p = some a → q a = false) : (toTail p l).filter q = l.filter q := by
  cases hf : l.find? p with
  | none => rw [toTail_of_none hf]
  | some a =>
    rw [toTail_of_some hf, filter_append, filter_eraseP_of_neg h,
      filter_cons_of_neg (by rw [h a hf]; decide), filter_nil, append_nil]

theorem filter_toTail_of_pos [DecidableEq α] (hl : l.Nodup) (hf : l.find? p = some a) (ha : q a = true) :
    (toTail p l).filter q = (l.filter q).erase a ++ [a] := by
  obtain ⟨hpa, as, bs, rfl, has⟩ := find?_eq_some_iff_append.1 hf
  have herase : (as ++ a :: bs).eraseP p = as ++ bs := by
    rw [eraseP_append_right _ (fun c hc => by simpa using has c hc), eraseP_cons_of_pos hpa]
  have hnot : a ∉ as.filter q := fun h => (nodup_append.1 hl).2.2 a (mem_filter.1 h).1 a mem_cons_self rfl
  rw [toTail_of_some hf, herase, filter_append, filter_append, filter_append,
    filter_cons_of_pos ha, filter_cons_of_pos ha, filter_nil, erase_append_right _ hnot,
    erase_cons_head]

/-! ## Sorting by moving -/

section

variable (number : α → Nat)

def sortTo (ks : List Nat) (l : List α) : List α := ks.foldl (fun l k => toTail (number · == k) l) l

variable {number} {ks : List Nat}

theorem sortTo_append (k : Nat) : sortTo number (ks ++ [k]) l = toTail (number · == k) (sortTo number ks l) := by
  unfold sortTo
  rw [foldl_append, foldl_cons, foldl_nil]

theorem find?_sortTo (hk : k ∉ ks) : (sortTo number ks l).find? (number · == k) = l.find? (number · == k) := by
  induction ks using reverseRecOn with
  | nil => rfl
  | append_singleton ks j ih =>
    rw [mem_append, mem_singleton, not_or] at hk
    rw [sortTo_append, find?_toTail, ih hk.1]
    intro c hc
    have hcj : number c = j := by simpa using hc
    simpa [hcj] using fun h : j = k => hk.2 h.symm

theorem sortTo_perm : (sortTo number ks l).Perm l := by
  induction ks using reverseRecOn with
  | nil => exact List.Perm.refl l
  | append_singleton ks j ih =>
    rw [sortTo_append]
    exact toTail_perm.trans ih

theorem sortTo_append_right (h : ∀ a ∈ l1, number a ∉ ks) :
    sortTo number ks (l1 ++ l2) = l1 ++ sortTo number ks l2 := by
  induction ks using reverseRecOn with
  | nil => rfl
  | append_singleton ks j ih =>
    have hks : ∀ a ∈ l1, number a ∉ ks := fun a ha hmem => h a ha (mem_append_left _ hmem)
    have hj : ∀ a ∈ l1, ¬ (number a == j) = true := by
      intro a ha hmem
      exact h a ha (mem_append_right _ (by simpa using hmem))
    rw [sortTo_append, sortTo_append, ih hks]
    unfold toTail
    rw [find?_append, find?_eq_none.2 hj, eraseP_append_right _ hj]
    cases (sortTo number ks l2).find? (number · == j) with
    | none => rfl
    | some a => exact append_assoc ..

def moved [DecidableEq α] (number : α → Nat) (ks : List Nat) (l : List α) (a : α) : Bool :=
  decide (number a ∈ ks) && (l.find? (number · == number a) == some a)

/-- Of the entries of interest, those that were not moved come first, then the others in the order of the numbers. -/
theorem filter_sortTo [DecidableEq α] (number : α → Nat) (q : α → Bool) (hl : l.Nodup) (hks : ks.Nodup) :
    (sortTo number ks l).filter q =
      l.filter (fun a => q a && !moved number ks l a) ++ ks.filterMap fun k => (l.find? (number · == k)).filter q := by
  induction ks using reverseRecOn with
  | nil => simp [sortTo, moved]
  | append_singleton ks k ih =>
    obtain ⟨hks, -, hk⟩ := nodup_append.1 hks
    have hk : k ∉ ks := fun h => hk k h k (by simp) rfl
    have hfind : (sortTo number ks l).find? (number · == k) = l.find? (number · == k) := find?_sortTo hk
    have hstep : ∀ b, moved number (ks ++ [k]) l b =
        (moved number ks l b || (decide (number b = k) && (l.find? (number · == k) == some b))) := by
      intro b
      unfold moved
      by_cases hbk : number b = k
      · simp [hbk, hk]
      · simp [hbk]
    rw [sortTo_append, filterMap_append, ← append_assoc]
    by_cases hin : ∃ a, l.find? (number · == k) = some a ∧ q a = true
    · obtain ⟨a, hfa, hqa⟩ := hin
      have ha := mem_of_find?_eq_some hfa
      have hna : number a = k := by simpa using find?_some hfa
      rw [filter_toTail_of_pos (sortTo_perm.nodup_iff.2 hl) (hfind.trans hfa) hqa, ih hks]
      have hmem : a ∈ l.filter (fun a => q a && !moved number ks l a) := by simp [ha, hqa, moved, hna, hk]
      rw [erase_append_left _ hmem, (hl.filter _).erase_eq_filter, filter_filter]
      simp only [hfa, filterMap_cons, filterMap_nil, Option.filter_some, hqa, if_true]
      congr 2
      refine filter_congr fun b _ => ?_
      rw [hstep, hfa]
      by_cases hba : b = a
      · simp [hba, hna]
      · have hne : (b != a) = true := by simpa using hba
        have hne' : (some a == some b) = false := by simpa using Ne.symm hba
        simp [hne, hne']
    have hnot : ∀ a, l.find? (number · == k) = some a → q a = false := by
      intro a ha
      by_contra hqa
      exact hin ⟨a, ha, by simpa using hqa⟩
    rw [filter_toTail_of_neg (fun a ha => hnot a (hfind ▸ ha)), ih hks]
    have hnone : [k].filterMap (fun k => (l.find? (number · == k)).filter q) = [] := by
      cases hf : l.find? (number · == k) with
      | none => simp [hf]
      | some a => simp [hf, hnot a hf]
    rw [hnone, append_nil]
    congr 1
    refine filter_congr fun b _ => ?_
    rw [hstep]
    cases hf : l.find? (number · == k) with
    | none => simp
    | some a =>
      by_cases hba : b = a
      · simp [hba, hnot a hf]
      · have hne : (some a == some b) = false := by simpa using Ne.symm hba
        simp [hne]

end

end FirstMatch
