import Mathlib.Data.List.Basic
/-!
# Linked — lists of records chained by an address in the record

`Linked` says which addresses a chain goes through.  A walk that reads a free address faults, and one that takes more
steps than there are addresses runs in a circle: both are `none`.
-/
namespace Linked

open Function Option

open List hiding head tail

universe u

structure Links (ν : Type u) where
  next : ν → Option Nat
  setNext : Option Nat → ν → ν
  next_setNext : ∀ p n, next (setNext p n) = p
  setNext_setNext : ∀ p q n, setNext p (setNext q n) = setNext p n

variable {ν : Type u} (L : Links ν) (mem : Nat → Option ν) {l l2 : List Nat} {p : Option Nat} {a : Nat}

def search (test : ν → Bool) : Nat → Option Nat → Option Nat → Option (Option (Option Nat × Nat))
  | _, _, none => some none
  | 0, _, some _ => none
  | fuel + 1, prev, some a =>
    match mem a with
    | none => none
    | some n => if test n then some (some (prev, a)) else search test fuel (some a) (L.next n)

def addrs : Nat → Option Nat → Option (List Nat)
  | _, none => some []
  | 0, some _ => none
  | fuel + 1, some a =>
    match mem a with
    | none => none
    | some n => (addrs fuel (L.next n)).map (a :: ·)

def pushBack (head tail : Option Nat) (a : Nat) : Option ((Nat → Option ν) × Option Nat × Option Nat) :=
  match head with
  | none => some (mem, some a, some a)
  | some h =>
    match tail with
    | none => none
    | some t =>
      match mem t with
      | none => none
      | some n => some (Function.update mem t (some (L.setNext (some a) n)), some h, some a)

def unlink (head tail prev next : Option Nat) : Option ((Nat → Option ν) × Option Nat × Option Nat) :=
  let tail := if next = none then prev else tail
  match prev with
  | none => some (mem, next, tail)
  | some q =>
    match mem q with
    | none => none
    | some n => some (Function.update mem q (some (L.setNext next n)), head, tail)

def walk (stop : Nat → ν → Bool) : Nat → Option Nat → Option Nat → Option (Option Nat × Option Nat)
  | _, prev, none => some (prev, none)
  | 0, _, some _ => none
  | fuel + 1, prev, some a =>
    match mem a with
    | none => none
    | some n => if stop a n then some (prev, some a) else walk stop fuel (some a) (L.next n)

def relink (head prev q : Option Nat) : Option ((Nat → Option ν) × Option Nat) :=
  match prev with
  | none => some (mem, q)
  | some a =>
    match mem a with
    | none => none
    | some n => some (Function.update mem a (some (L.setNext q n)), head)

/-- The chain from `p` goes through these addresses and ends with the link `q`. -/
def Seg : Option Nat → List Nat → Option Nat → Prop
  | p, [], q => p = q
  | p, a :: l, q => p = some a ∧ ∃ n, mem a = some n ∧ Seg (L.next n) l q

variable {L mem}

theorem Seg.live : ∀ {l : List Nat} {p q : Option Nat}, Seg L mem p l q → ∀ a ∈ l, ∃ n, mem a = some n
  | [], _, _, _, a, ha => by cases ha
  | b :: l, p, q, h, a, ha => by
    obtain ⟨_, n, hn, hl⟩ := h
    rcases mem_cons.1 ha with rfl | ha
    · exact ⟨n, hn⟩
    · exact hl.live a ha

theorem Seg.frame : ∀ {l : List Nat} {p q : Option Nat}, Seg L mem p l q →
    (∀ a ∈ l, (mem' a).map L.next = (mem a).map L.next) → Seg L mem' p l q
  | [], _, _, h, _ => h
  | a :: l, p, q, h, hm => by
    obtain ⟨hp, n, hn, hl⟩ := h
    have ha := hm a mem_cons_self
    rw [hn] at ha
    obtain ⟨m, hm', hnext⟩ := map_eq_some_iff.1 ha
    exact ⟨hp, m, hm', hnext ▸ hl.frame (forall_mem_cons.1 hm).2⟩

theorem Seg.update (h : Seg L mem p l q) (ha : a ∉ l) (n : Option ν) : Seg L (Function.update mem a n) p l q := by
  apply h.frame
  intro b hb
  have hne : b ≠ a := fun he => ha (he ▸ hb)
  rw [update_of_ne hne]

theorem seg_append : ∀ {l1 l2 : List Nat} {p q : Option Nat},
    Seg L mem p (l1 ++ l2) q ↔ ∃ r, Seg L mem p l1 r ∧ Seg L mem r l2 q
  | [], l2, p, q => ⟨fun h => ⟨p, rfl, h⟩, fun ⟨_, hr, h⟩ => hr ▸ h⟩
  | a :: l1, l2, p, q => by
    constructor
    · rintro ⟨hp, n, hn, h⟩
      obtain ⟨r, h1, h2⟩ := seg_append.1 h
      exact ⟨r, ⟨hp, n, hn, h1⟩, h2⟩
    · rintro ⟨r, ⟨hp, n, hn, h1⟩, h2⟩
      exact ⟨hp, n, hn, seg_append.2 ⟨r, h1, h2⟩⟩

theorem Seg.setLast (h : Seg L mem p (l ++ [a]) q) (ha : a ∉ l)
    (n : ν) (r : Option Nat) : Seg L (Function.update mem a (some (L.setNext r n))) p (l ++ [a]) r := by
  obtain ⟨t, h1, h2⟩ := seg_append.1 h
  refine seg_append.2 ⟨t, h1.update ha _, h2.1, L.setNext r n, update_self _ _ _, ?_⟩
  exact L.next_setNext r n

/-! ## Walks -/

theorem addrs_seg : ∀ {l : List Nat} {p : Option Nat} {fuel : Nat}, Seg L mem p l none → l.length ≤ fuel →
    addrs L mem fuel p = some l
  | [], _, fuel, h, _ => by
    cases h
    cases fuel <;> rfl
  | a :: l, p, 0, _, hf => absurd hf (Nat.not_succ_le_zero _)
  | a :: l, p, fuel + 1, h, hf => by
    obtain ⟨rfl, n, hn, hl⟩ := h
    simp [addrs, hn, addrs_seg hl (Nat.le_of_succ_le_succ hf)]

theorem search_absent : ∀ {l : List Nat} {p prev : Option Nat} {fuel : Nat},
    Seg L mem p l none → l.length ≤ fuel → (∀ a ∈ l, ∀ n, mem a = some n → test n = false) →
    search L mem test fuel prev p = some none
  | [], _, _, fuel, h, _, _ => by
    cases h
    cases fuel <;> rfl
  | a :: l, p, _, 0, _, hf, _ => absurd hf (Nat.not_succ_le_zero _)
  | a :: l, p, prev, fuel + 1, h, hf, ht => by
    obtain ⟨rfl, n, hn, hl⟩ := h
    simp only [search, hn, ht a mem_cons_self n hn, Bool.false_eq_true, if_false]
    exact search_absent hl (Nat.le_of_succ_le_succ hf) (forall_mem_cons.1 ht).2

theorem search_present :
    ∀ {l1 : List Nat} {p prev q : Option Nat} {fuel : Nat}, Seg L mem p (l1 ++ a :: l2) q → l1.length < fuel →
    (∀ b ∈ l1, ∀ m, mem b = some m → test m = false) → mem a = some n → test n = true →
    search L mem test fuel prev p = some (some (l1.getLast?.or prev, a))
  | [], p, prev, q, 0, _, hf, _, _, _ => absurd hf (Nat.not_lt_zero _)
  | [], p, prev, q, fuel + 1, h, _, _, hn, ht => by
    obtain ⟨rfl, _⟩ := h
    simp [search, hn, ht, getLast?_nil]
  | b :: l1, p, prev, q, 0, _, hf, _, _, _ => absurd hf (Nat.not_lt_zero _)
  | b :: l1, p, prev, q, fuel + 1, h, hf, hl, hn, ht => by
    obtain ⟨rfl, m, hm, htail⟩ := h
    simp only [search, hm, hl b mem_cons_self m hm, Bool.false_eq_true, if_false]
    rw [search_present htail (Nat.lt_of_succ_lt_succ hf) (forall_mem_cons.1 hl).2 hn ht]
    cases l1 with
    | nil => rfl
    | cons c l1 => rfl

theorem walk_seg {stop : Nat → ν → Bool} : ∀ {l : List Nat} {p : Option Nat} (prev : Option Nat) {fuel : Nat},
    Seg L mem p l none → l.length ≤ fuel → ∃ l1 l2, l = l1 ++ l2 ∧
      walk L mem stop fuel prev p = some (l1.getLast?.or prev, l2.head?) ∧
      (∀ a ∈ l1, ∀ n, mem a = some n → stop a n = false) ∧
      (∀ a ∈ l2.head?, ∀ n, mem a = some n → stop a n = true)
  | [], _, prev, fuel, h, _ => by
    cases h
    refine ⟨[], [], rfl, ?_, nofun, nofun⟩
    cases fuel <;> rfl
  | a :: l, p, _, 0, _, hf => absurd hf (Nat.not_succ_le_zero _)
  | a :: l, p, prev, fuel + 1, h, hf => by
    obtain ⟨rfl, n, hn, hl⟩ := h
    by_cases hs : stop a n = true
    · refine ⟨[], a :: l, rfl, by simp only [walk, hn, hs, if_true]; rfl, nofun, ?_⟩
      intro b hb m hm
      cases hb
      rw [hn] at hm
      cases hm
      exact hs
    obtain ⟨l1, l2, rfl, hw, h1, h2⟩ := walk_seg (some a) hl (Nat.le_of_succ_le_succ hf)
    refine ⟨a :: l1, l2, rfl, ?_, ?_, h2⟩
    · simp only [walk, hn, hs, Bool.false_eq_true, if_false, hw]
      cases l1 with
      | nil => rfl
      | cons b l1 => rfl
    · intro b hb m hm
      rcases mem_cons.1 hb with rfl | hb
      · rw [hn] at hm
        cases hm
        exact Bool.eq_false_iff.2 hs
      · exact h1 b hb m hm

theorem walk_mem (h : Seg L mem p l none) (hf : l.length ≤ fuel) (ht : t ∈ l) : ∃ l1 l2, l = l1 ++ t :: l2 ∧
      walk L mem (fun a _ => a == t) fuel none p = some (l1.getLast?, some t) := by
  obtain ⟨l1, l2, rfl, hw, h1, h2⟩ := @walk_seg _ L mem (fun a _ => a == t) _ _ none _ h hf
  have ht1 : t ∉ l1 := by
    intro hm
    obtain ⟨n, hn⟩ := h.live t ht
    have := h1 t hm n hn
    simp at this
  cases l2 with
  | nil =>
    rw [append_nil] at ht
    exact absurd ht ht1
  | cons b l2 =>
    obtain ⟨m, hm⟩ := h.live b (mem_append_right _ mem_cons_self)
    obtain rfl : b = t := by simpa using h2 b rfl m hm
    exact ⟨l1, l2, rfl, by rw [hw, or_none]; rfl⟩

theorem walk_not_mem (h : Seg L mem p l none) (hf : l.length ≤ fuel)
    (ht : t ∉ l) : ∃ prev, walk L mem (fun a _ => a == t) fuel none p = some (prev, none) := by
  obtain ⟨l1, l2, rfl, hw, -, h2⟩ := @walk_seg _ L mem (fun a _ => a == t) _ _ none _ h hf
  cases l2 with
  | nil => exact ⟨_, hw⟩
  | cons b l2 =>
    obtain ⟨m, hm⟩ := h.live b (mem_append_right _ mem_cons_self)
    obtain rfl : b = t := by simpa using h2 b rfl m hm
    exact absurd (mem_append_right _ mem_cons_self) ht

/-! ## Chains with a head and a tail pointer -/

def Relinked (L : Links ν) (mem mem' : Nat → Option ν) : Prop :=
  ∀ a, (mem' a).map (L.setNext none) = (mem a).map (L.setNext none)

theorem Relinked.refl : Relinked L mem mem := fun _ => rfl

theorem Relinked.trans (h : Relinked L mem1 mem2) (h' : Relinked L mem2 mem3) :
    Relinked L mem1 mem3 := fun a => (h' a).trans (h a)

theorem Relinked.setNext (hn : mem a = some n) (p : Option Nat) :
    Relinked L mem (Function.update mem a (some (L.setNext p n))) := by
  intro b
  by_cases hb : b = a
  · subst hb
    rw [update_self, hn, map_some, map_some, L.setNext_setNext]
  · rw [update_of_ne hb]

/-- A store into the last link of a part of a chain changes where that part goes on, and nothing else. -/
theorem relink_seg (h : Seg L mem head l p) (hl : l.Nodup) (q : Option Nat) :
    ∃ mem' head', relink L mem head l.getLast? q = some (mem', head') ∧ Seg L mem' head' l q ∧
      (∀ b, b ∉ l → mem' b = mem b) ∧ Relinked L mem mem' := by
  rcases eq_nil_or_concat l with rfl | ⟨l0, a, rfl⟩
  · exact ⟨mem, q, rfl, rfl, fun _ _ => rfl, .refl⟩
  rw [concat_eq_append] at *
  have hmem : a ∈ l0 ++ [a] := mem_append_right _ mem_cons_self
  obtain ⟨n, hn⟩ := h.live a hmem
  have ha : a ∉ l0 := fun hm => (nodup_append.1 hl).2.2 a hm a mem_cons_self rfl
  refine ⟨Function.update mem a (some (L.setNext q n)), head, ?_, h.setLast ha n q, ?_, .setNext hn _⟩
  · rw [getLast?_concat]
    simp only [relink, hn]
  · intro b hb
    have hne : b ≠ a := fun he => hb (he ▸ hmem)
    exact update_of_ne hne ..

theorem Seg.head : ∀ {l : List Nat} {p : Option Nat}, Seg L mem p l none → p = l.head?
  | [], _, h => h
  | _ :: _, _, h => h.1

theorem relink_out (h : Seg L mem head (l1 ++ a :: l2) none) (hl : (l1 ++ a :: l2).Nodup) (hn : mem a = some n) :
    ∃ mem' head', relink L mem head l1.getLast? (L.next n) = some (mem', head') ∧
      Seg L mem' head' (l1 ++ l2) none ∧ (∀ b, b ∉ l1 → mem' b = mem b) ∧ Relinked L mem mem' := by
  obtain ⟨r, hseg1, -, m, hm, hseg2⟩ := seg_append.1 h
  rw [hn] at hm
  cases hm
  obtain ⟨h1, h2, hdis⟩ := nodup_append.1 hl
  obtain ⟨mem', head', hr, hs, hsame, hrel⟩ := relink_seg hseg1 h1 (L.next n)
  refine ⟨mem', head', hr, seg_append.2 ⟨_, hs, hseg2.frame fun b hb => ?_⟩, hsame, hrel⟩
  rw [hsame b fun hb1 => hdis b hb1 b (mem_cons_of_mem _ hb) rfl]

theorem relink_in (h : Seg L mem head (l1 ++ l2) none)
    (hl : (l1 ++ l2).Nodup) (ha : a ∉ l1) (hn : mem a = some n) (hnext : L.next n = l2.head?) :
    ∃ mem' head', relink L mem head l1.getLast? (some a) = some (mem', head') ∧
      Seg L mem' head' (l1 ++ a :: l2) none ∧ (∀ b, b ∉ l1 → mem' b = mem b) ∧ Relinked L mem mem' := by
  obtain ⟨r, hseg1, hseg2⟩ := seg_append.1 h
  obtain ⟨h1, h2, hdis⟩ := nodup_append.1 hl
  obtain ⟨mem', head', hr, hs, hsame, hrel⟩ := relink_seg hseg1 h1 (some a)
  have hrest : Seg L mem' l2.head? l2 none := by
    rw [hseg2.head] at hseg2
    apply hseg2.frame
    intro b hb
    rw [hsame b fun hb1 => hdis b hb1 b hb rfl]
  exact ⟨mem', head', hr, seg_append.2 ⟨some a, hs, rfl, n, by rw [hsame a ha, hn], hnext ▸ hrest⟩, hsame, hrel⟩

/-- The chain from the head goes through these addresses, each once, and the tail is the last of them. -/
structure Chain (L : Links ν) (mem : Nat → Option ν) (head tail : Option Nat) (l : List Nat) : Prop where
  seg : Seg L mem head l none
  tail : tail = l.getLast?
  nodup : l.Nodup

theorem Chain.nil : Chain L mem none none [] := ⟨rfl, rfl, nodup_nil⟩

theorem Chain.update {head tail : Option Nat} (h : Chain L mem head tail l) (ha : a ∉ l)
    (n : Option ν) : Chain L (Function.update mem a n) head tail l :=
  ⟨h.seg.update ha n, h.tail, h.nodup⟩

theorem Chain.pushBack {head tail : Option Nat} (h : Chain L mem head tail l)
    (ha : a ∉ l) (hn : mem a = some n) (hnext : L.next n = none) :
    ∃ mem' head', Linked.pushBack L mem head tail a = some (mem', head', some a) ∧
      Chain L mem' head' (some a) (l ++ [a]) ∧
      (∀ b, b ∉ l → mem' b = mem b) ∧ Relinked L mem mem' := by
  have hnodup : (l ++ [a]).Nodup := nodup_append.2 ⟨h.nodup, pairwise_singleton _ a,
    fun b hb c hc => (fun he => ha (by rw [mem_singleton] at hc; rw [← hc, ← he]; exact hb))⟩
  have hlast : some a = (l ++ [a]).getLast? := by rw [getLast?_concat]
  rcases eq_nil_or_concat l with rfl | ⟨l1, t, rfl⟩
  · have hh : head = none := h.seg
    subst hh
    exact ⟨mem, some a, rfl, ⟨⟨rfl, n, hn, hnext⟩, hlast, hnodup⟩, fun _ _ => rfl, .refl⟩
  rw [concat_eq_append] at h ha hnodup hlast ⊢
  have ht : tail = some t := by rw [h.tail, getLast?_concat]
  have htl : t ∉ l1 := fun hm => (nodup_append.1 h.nodup).2.2 t hm t mem_cons_self rfl
  obtain ⟨m, hm⟩ := h.seg.live t (mem_append_right _ mem_cons_self)
  have hat : a ≠ t := fun he => ha (he ▸ mem_append_right _ mem_cons_self)
  obtain ⟨h0, hh⟩ : ∃ h0, head = some h0 := by
    cases l1 with
    | nil => exact ⟨t, h.seg.1⟩
    | cons c l1 => exact ⟨c, h.seg.1⟩
  refine ⟨Function.update mem t (some (L.setNext (some a) m)), head, ?_, ⟨?_, hlast, hnodup⟩, ?_, .setNext hm _⟩
  · subst hh ht
    simp only [Linked.pushBack, hm]
  · refine seg_append.2 ⟨some a, h.seg.setLast htl m (some a), rfl, n, ?_, hnext⟩
    rw [update_of_ne hat, hn]
  · intro b hb
    have hne : b ≠ t := fun he => hb (he ▸ mem_append_right _ mem_cons_self)
    rw [update_of_ne hne]

theorem Chain.unlink {head tail : Option Nat} (h : Chain L mem head tail (l1 ++ a :: l2)) (hn : mem a = some n) :
    ∃ mem' head' tail', Linked.unlink L mem head tail l1.getLast? (L.next n) = some (mem', head', tail') ∧
      Chain L mem' head' tail' (l1 ++ l2) ∧
      (∀ b, b ∉ l1 → mem' b = mem b) ∧ Relinked L mem mem' := by
  obtain ⟨r, hseg1, hr, m, hm, hseg2⟩ := seg_append.1 h.seg
  rw [hn] at hm
  cases hm
  have hnodup : (l1 ++ l2).Nodup := (sublist_cons_self a l2).append_left l1 |>.nodup h.nodup
  have hnext : L.next n = l2.head? := by
    cases l2 with
    | nil => exact hseg2
    | cons b l2 => exact hseg2.1
  have htail : (if L.next n = none then l1.getLast? else tail) = (l1 ++ l2).getLast? := by
    rw [hnext]
    cases l2 with
    | nil => rw [head?_nil, if_pos rfl, append_nil]
    | cons b l2 =>
      rw [if_neg (by simp), h.tail]
      simp
  rcases eq_nil_or_concat l1 with rfl | ⟨l0, q, rfl⟩
  · refine ⟨mem, L.next n, _, rfl, ⟨hseg2, htail, hnodup⟩, fun _ _ => rfl, .refl⟩
  rw [concat_eq_append] at *
  have hq : (l0 ++ [q]).getLast? = some q := getLast?_concat
  have hqm : q ∈ l0 ++ [q] := mem_append_right _ mem_cons_self
  obtain ⟨k, hk⟩ := hseg1.live q hqm
  have hq0 : q ∉ l0 := fun hm => (nodup_append.1 (nodup_append.1 hnodup).1).2.2 q hm q mem_cons_self rfl
  have hq2 : q ∉ l2 := fun hm => (nodup_append.1 hnodup).2.2 q hqm q hm rfl
  refine ⟨Function.update mem q (some (L.setNext (L.next n) k)), head, _, ?_, ⟨?_, htail, hnodup⟩, ?_,
    .setNext hk _⟩
  · simp only [Linked.unlink, hq, hk]
  · exact seg_append.2 ⟨L.next n, hseg1.setLast hq0 k _, hseg2.update hq2 _⟩
  · intro b hb
    have hne : b ≠ q := fun he => hb (he ▸ hqm)
    rw [update_of_ne hne]

end Linked
