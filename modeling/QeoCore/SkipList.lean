import Mathlib.Algebra.Group.Nat.Defs
import Mathlib.Data.List.Basic
import Mathlib.Order.Lattice
/-!
# SkipList — ordered lists with a random number of links per node

A node of level `k` is on the lists of the levels `0` to `k`.  The links are not kept: the successor of a place on level
`k` is the first node behind it of at least that level.  What a search compares depends on the levels, where it ends
does not (`descend_split`).  A comparison may fault (`none`), and then the search does.
-/
namespace SkipList

open List Option

universe u v
variable {α : Type u}

structure Node (α : Type u) where
  addr : Nat
  data : α
  level : Nat
  deriving DecidableEq

structure Nodes (α : Type u) where
  nodes : List (Node α)
  level : Nat
  deriving DecidableEq

def empty : Nodes α := ⟨[], 0⟩

def advance (cmp : α → Option Ordering) (k : Nat) (base : List (Node α)) : List (Node α) → Option (List (Node α))
  | [] => some base
  | n :: rest =>
    if k ≤ n.level then
      match cmp n.data with
      | none => none
      | some .lt => advance cmp k rest rest
      | some _ => some base
    else advance cmp k base rest

def descend (cmp : α → Option Ordering) : Nat → List (Node α) → Option (List (Node α))
  | 0, base => advance cmp 0 base base
  | k + 1, base => (advance cmp (k + 1) base base).bind (descend cmp k)

def hit (cmp : α → Option Ordering) : List (Node α) → Option (Node α)
  | [] => none
  | n :: _ => if cmp n.data = some .eq then some n else none

section
variable (l : Nodes α)

section
variable (cmp : α → Option Ordering)

def seek : Option (List (Node α)) :=
  if l.nodes = [] then some [] else descend cmp l.level l.nodes

def search : Option (Option (Node α)) :=
  (seek l cmp).map (hit cmp)

def newLevel (random : Nat) : Nat :=
  if l.nodes = [] then 0 else min random (l.level + 1)

def put (rest : List (Node α)) (n : Node α) : Nodes α where
  nodes := l.nodes.take (l.nodes.length - rest.length) ++ n :: rest
  level := if l.nodes = [] then 0 else max l.level n.level

def insert (addr random : Nat) (data : α) :
    Option (Nodes α × Node α × Bool) :=
  (seek l cmp).map fun rest =>
    match hit cmp rest with
    | some n => (l, n, false)
    | none =>
      let n := ⟨addr, data, newLevel l random⟩
      (put l rest n, n, true)

def topLevel (nodes : List (Node α)) : Nat → Nat
  | 0 => 0
  | m + 1 => if nodes.any (fun n => decide (m + 1 ≤ n.level)) then m + 1 else topLevel nodes m

def delete : Option (Nodes α) :=
  (seek l cmp).map fun rest =>
    match hit cmp rest with
    | none => l
    | some _ =>
      let nodes := l.nodes.take (l.nodes.length - rest.length) ++ rest.tail
      ⟨nodes, topLevel nodes l.level⟩

end

def store (addr : Nat) (data : α) : Nodes α :=
  { l with nodes := l.nodes.map fun n => if n.addr = addr then { n with data := data } else n }

def node? (addr : Nat) : Option (Node α) := l.nodes.find? (fun n => n.addr == addr)

end

theorem store_split (data : α) (h : ∀ m ∈ pre ++ post, m.addr ≠ n.addr) :
    store ⟨pre ++ n :: post, k⟩ n.addr data = ⟨pre ++ { n with data := data } :: post, k⟩ := by
  have hother : ∀ l : List (Node α), (∀ m ∈ l, m.addr ≠ n.addr) →
      l.map (fun m => if m.addr = n.addr then { m with data := data } else m) = l := by
    intro l hl
    rw [List.map_congr_left (fun m hm => if_neg (hl m hm)), List.map_id']
  have hpre := hother pre (forall_mem_append.1 h).1
  have hpost := hother post (forall_mem_append.1 h).2
  simp [store, hpre, hpost]

theorem node?_split {pre post : List (Node α)} (h : ∀ m ∈ pre ++ post, m.addr ≠ n.addr) :
    node? ⟨pre ++ n :: post, k⟩ n.addr = some n := by
  have hpre : pre.find? (fun m => m.addr == n.addr) = none := by
    rw [find?_eq_none]
    intro m hm
    simpa using h m (mem_append_left _ hm)
  simp [node?, hpre]

/-! ## Where a search ends -/

section
variable {cmp : α → Option Ordering}

theorem advance_stays (k : Nat) (hpost : ∀ n ∈ post, ∃ o, cmp n.data = some o ∧ o ≠ .lt) :
    ∀ (rest base : List (Node α)), (∀ n ∈ rest, cmp n.data = some .lt) → (∀ n ∈ base, cmp n.data = some .lt) →
      ∃ b, (∀ n ∈ b, cmp n.data = some .lt) ∧ advance cmp k (base ++ post) (rest ++ post) = some (b ++ post)
  | [], base, _, hbase => by
    refine ⟨base, hbase, ?_⟩
    show advance cmp k (base ++ post) post = some (base ++ post)
    generalize base ++ post = whole
    induction post with
    | nil => rfl
    | cons n post ih =>
      obtain ⟨o, ho, hne⟩ := hpost n mem_cons_self
      have hrest := ih (forall_mem_cons.1 hpost).2
      by_cases hk : k ≤ n.level
      · rw [advance, if_pos hk, ho]
        cases o
        · exact absurd rfl hne
        · rfl
        · rfl
      · rw [advance, if_neg hk]
        exact hrest
  | n :: rest, base, hrest, hbase => by
    have htail := (forall_mem_cons.1 hrest).2
    by_cases hk : k ≤ n.level
    · obtain ⟨b, hb, heq⟩ := advance_stays k hpost rest rest htail htail
      refine ⟨b, hb, ?_⟩
      rw [cons_append, advance, if_pos hk, hrest n mem_cons_self]
      exact heq
    · obtain ⟨b, hb, heq⟩ := advance_stays k hpost rest base htail hbase
      refine ⟨b, hb, ?_⟩
      rw [cons_append, advance, if_neg hk]
      exact heq

theorem advance_lowest (hpost : ∀ n ∈ post, ∃ o, cmp n.data = some o ∧ o ≠ .lt) :
    ∀ pre : List (Node α), (∀ n ∈ pre, cmp n.data = some .lt) →
      advance cmp 0 (pre ++ post) (pre ++ post) = some post
  | [], _ => by
    cases post with
    | nil => rfl
    | cons n post =>
      obtain ⟨o, ho, hne⟩ := hpost n mem_cons_self
      rw [nil_append, advance, ho]
      cases o
      · exact absurd rfl hne
      · rfl
      · rfl
  | n :: pre, hpre => by
    rw [cons_append, advance, hpre n mem_cons_self]
    exact advance_lowest hpost pre (forall_mem_cons.1 hpre).2

/-- **A search ends behind the smaller nodes, whatever the levels.** -/
theorem descend_split (hpost : ∀ n ∈ post, ∃ o, cmp n.data = some o ∧ o ≠ .lt) :
    ∀ (k : Nat) (pre : List (Node α)), (∀ n ∈ pre, cmp n.data = some .lt) → descend cmp k (pre ++ post) = some post
  | 0, pre, hpre => advance_lowest hpost pre hpre
  | k + 1, pre, hpre => by
    obtain ⟨b, hb, heq⟩ := advance_stays (k + 1) hpost pre pre hpre hpre
    rw [descend, heq]
    exact descend_split hpost k b hb

theorem seek_split (hl : l.nodes = pre ++ post)
    (hpre : ∀ n ∈ pre, cmp n.data = some .lt) (hpost : ∀ n ∈ post, ∃ o, cmp n.data = some o ∧ o ≠ .lt) :
    seek l cmp = some post := by
  unfold seek
  by_cases he : l.nodes = []
  · rw [if_pos he]
    rw [he] at hl
    rw [(append_eq_nil_iff.1 hl.symm).2]
  · rw [if_neg he, hl]
    exact descend_split hpost _ pre hpre

theorem advance_suffix (k : Nat) :
    ∀ rest base : List (Node α), (∀ n ∈ rest, ∃ o, cmp n.data = some o) → rest <:+ base →
      ∃ b, advance cmp k base rest = some b ∧ b <:+ base
  | [], base, _, _ => ⟨base, rfl, suffix_rfl⟩
  | n :: rest, base, hcmp, hsuf => by
    obtain ⟨o, ho⟩ := hcmp n mem_cons_self
    have htail := (forall_mem_cons.1 hcmp).2
    have hrest : rest <:+ base := (suffix_cons n rest).trans hsuf
    by_cases hk : k ≤ n.level
    · rw [advance, if_pos hk, ho]
      cases o with
      | lt =>
        obtain ⟨b, hb, hbs⟩ := advance_suffix k rest rest htail suffix_rfl
        exact ⟨b, hb, hbs.trans hrest⟩
      | eq | gt => exact ⟨base, rfl, suffix_rfl⟩
    · rw [advance, if_neg hk]
      exact advance_suffix k rest base htail hrest

theorem descend_suffix :
    ∀ (k : Nat) (base : List (Node α)), (∀ n ∈ base, ∃ o, cmp n.data = some o) →
      ∃ b, descend cmp k base = some b ∧ b <:+ base
  | 0, base, hcmp => advance_suffix 0 base base hcmp suffix_rfl
  | k + 1, base, hcmp => by
    obtain ⟨b, hb, hbs⟩ := advance_suffix (k + 1) base base hcmp suffix_rfl
    obtain ⟨c, hc, hcs⟩ := descend_suffix k b (fun n hn => hcmp n (hbs.subset hn))
    refine ⟨c, ?_, hcs.trans hbs⟩
    rw [descend, hb]
    exact hc

theorem mem_of_hit (h : hit cmp rest = some n) : n ∈ rest ∧ cmp n.data = some .eq := by
  cases rest with
  | nil => cases h
  | cons m rest =>
    rw [hit] at h
    by_cases hm : cmp m.data = some .eq
    · rw [if_pos hm] at h
      cases h
      exact ⟨mem_cons_self, hm⟩
    · rw [if_neg hm] at h
      cases h

theorem search_total (hcmp : ∀ n ∈ l.nodes, ∃ o, cmp n.data = some o) :
    ∃ r, search l cmp = some r ∧ ∀ n, r = some n → n ∈ l.nodes ∧ cmp n.data = some .eq := by
  unfold search seek
  by_cases he : l.nodes = []
  · rw [if_pos he]
    exact ⟨none, rfl, nofun⟩
  obtain ⟨b, hb, hbs⟩ := descend_suffix l.level l.nodes hcmp
  rw [if_neg he, hb]
  refine ⟨hit cmp b, rfl, fun n hn => ?_⟩
  obtain ⟨hm, heq⟩ := mem_of_hit hn
  exact ⟨hbs.subset hm, heq⟩

end

/-! ## Nodes in the order of a key -/

section
variable {κ : Type v} [LinearOrder κ] (f : α → κ)

def Ordered (nodes : List (Node α)) : Prop := nodes.Pairwise fun m n => f m.data < f n.data

def Compares (cmp : α → Option Ordering) (x : κ) (nodes : List (Node α)) : Prop :=
  ∀ n ∈ nodes, cmp n.data = some (compare (f n.data) x)

variable {f}

theorem Ordered.split (x : κ) : ∀ {nodes : List (Node α)}, Ordered f nodes →
    ∃ pre post, nodes = pre ++ post ∧ (∀ n ∈ pre, f n.data < x) ∧ ∀ n ∈ post, x ≤ f n.data
  | [], _ => ⟨[], [], rfl, nofun, nofun⟩
  | n :: nodes, h => by
    obtain ⟨hn, hrest⟩ := pairwise_cons.1 h
    by_cases hx : f n.data < x
    · obtain ⟨pre, post, rfl, hpre, hpost⟩ := Ordered.split x hrest
      refine ⟨n :: pre, post, rfl, fun m hm => ?_, hpost⟩
      rcases mem_cons.1 hm with rfl | hm
      · exact hx
      · exact hpre m hm
    · refine ⟨[], n :: nodes, rfl, nofun, fun m hm => ?_⟩
      rcases mem_cons.1 hm with rfl | hm
      · exact not_lt.1 hx
      · exact (not_lt.1 hx).trans (hn m hm).le

theorem ordered_insert (h : Ordered f (pre ++ post))
    (hpre : ∀ m ∈ pre, f m.data < f n.data) (hpost : ∀ m ∈ post, f n.data < f m.data) :
    Ordered f (pre ++ n :: post) := by
  obtain ⟨h1, h2, h₁₂⟩ := pairwise_append.1 h
  refine pairwise_append.2 ⟨h1, pairwise_cons.2 ⟨hpost, h2⟩, fun m hm k hk => ?_⟩
  rcases mem_cons.1 hk with rfl | hk
  · exact hpre m hm
  · exact h₁₂ m hm k hk

theorem ordered_delete (h : Ordered f (pre ++ n :: post)) :
    Ordered f (pre ++ post) := List.Pairwise.sublist ((sublist_cons_self n post).append_left pre) h

theorem ne_of_ordered (h : Ordered f (pre ++ n :: post)) (hm : m ∈ pre ++ post) : f m.data ≠ f n.data := by
  obtain ⟨_, h2, h₁₂⟩ := pairwise_append.1 h
  rcases mem_append.1 hm with hm | hm
  · exact (h₁₂ m hm n mem_cons_self).ne
  · exact ((pairwise_cons.1 h2).1 m hm).ne'

variable {cmp : α → Option Ordering} {x : κ} {l : Nodes α}

section
variable (hc : Compares f cmp x l.nodes)
include hc

theorem seek_keyed (hl : l.nodes = pre ++ post)
    (hpre : ∀ n ∈ pre, f n.data < x) (hpost : ∀ n ∈ post, x ≤ f n.data) : seek l cmp = some post := by
  apply seek_split hl
  · intro n hn
    rw [hc n (hl ▸ mem_append_left _ hn), compare_lt_iff_lt.2 (hpre n hn)]
  · intro n hn
    refine ⟨_, hc n (hl ▸ mem_append_right _ hn), fun hlt => ?_⟩
    exact absurd (compare_lt_iff_lt.1 hlt) (not_lt.2 (hpost n hn))

section
variable (ho : Ordered f l.nodes)
include ho

theorem seek_present
    (hl : l.nodes = pre ++ n :: post) (hx : f n.data = x) :
    seek l cmp = some (n :: post) ∧ hit cmp (n :: post) = some n := by
  have hn : n ∈ l.nodes := hl ▸ mem_append_right _ mem_cons_self
  rw [hl] at ho
  obtain ⟨_, hpost, hpre⟩ := pairwise_append.1 ho
  constructor
  · apply seek_keyed hc hl
    · intro m hm
      exact hx ▸ hpre m hm n mem_cons_self
    intro m hm
    rcases mem_cons.1 hm with rfl | hm
    · exact hx.ge
    · exact hx ▸ ((pairwise_cons.1 hpost).1 m hm).le
  · have heq : cmp n.data = some .eq := by rw [hc n hn, compare_eq_iff_eq.2 hx]
    rw [hit, if_pos heq]

theorem seek_absent (hx : ∀ n ∈ l.nodes, f n.data ≠ x) :
    ∃ pre post, l.nodes = pre ++ post ∧ (∀ n ∈ pre, f n.data < x) ∧ (∀ n ∈ post, x < f n.data) ∧
      seek l cmp = some post ∧ hit cmp post = none := by
  obtain ⟨pre, post, hl, hpre, hpost⟩ := ho.split x
  have hgt : ∀ n ∈ post, x < f n.data := fun n hn =>
    lt_of_le_of_ne (hpost n hn) (hx n (hl ▸ mem_append_right _ hn)).symm
  refine ⟨pre, post, hl, hpre, hgt, seek_keyed hc hl hpre hpost, ?_⟩
  cases post with
  | nil => rfl
  | cons n post =>
    rw [hit, if_neg]
    intro heq
    have hn : n ∈ l.nodes := hl ▸ mem_append_right _ mem_cons_self
    rw [hc n hn] at heq
    exact hx n hn (compare_eq_iff_eq.1 (Option.some.inj heq))

theorem search_present (hn : n ∈ l.nodes)
    (hx : f n.data = x) : search l cmp = some (some n) := by
  obtain ⟨pre, post, hl⟩ := append_of_mem hn
  obtain ⟨hseek, hhit⟩ := seek_present hc ho hl hx
  rw [search, hseek, map_some, hhit]

theorem search_absent (hx : ∀ n ∈ l.nodes, f n.data ≠ x) : search l cmp = some none := by
  obtain ⟨pre, post, _, _, _, hseek, hhit⟩ := seek_absent hc ho hx
  rw [search, hseek, map_some, hhit]

theorem insert_present (hn : n ∈ l.nodes)
    (hx : f n.data = x) (addr random : Nat) (data : α) : insert l cmp addr random data = some (l, n, false) := by
  obtain ⟨pre, post, hl⟩ := append_of_mem hn
  obtain ⟨hseek, hhit⟩ := seek_present hc ho hl hx
  simp [insert, hseek, hhit]

/-- **An insertion of a new key keeps the order.** -/
theorem insert_absent (hx : ∀ n ∈ l.nodes, f n.data ≠ x)
    (addr random : Nat) (data : α) :
    ∃ pre post n k, l.nodes = pre ++ post ∧ (∀ m ∈ pre, f m.data < x) ∧ (∀ m ∈ post, x < f m.data) ∧
      n.addr = addr ∧ n.data = data ∧ insert l cmp addr random data = some (⟨pre ++ n :: post, k⟩, n, true) := by
  obtain ⟨pre, post, hl, hpre, hpost, hseek, hhit⟩ := seek_absent hc ho hx
  refine ⟨pre, post, ⟨addr, data, newLevel l random⟩, if l.nodes = [] then 0 else max l.level (newLevel l random),
    hl, hpre, hpost, rfl, rfl, ?_⟩
  rw [insert, hseek, map_some, hhit]
  have htake : l.nodes.take (l.nodes.length - post.length) = pre := by
    rw [hl, length_append, Nat.add_sub_cancel, take_left]
  simp only [put, htake]

theorem delete_present
    (hl : l.nodes = pre ++ n :: post) (hx : f n.data = x) : ∃ k, delete l cmp = some ⟨pre ++ post, k⟩ := by
  obtain ⟨hseek, hhit⟩ := seek_present hc ho hl hx
  have htake : l.nodes.take (l.nodes.length - (n :: post).length) = pre := by
    rw [hl, length_append, Nat.add_sub_cancel, take_left]
  rw [delete, hseek, map_some, hhit]
  simp only [htake, tail_cons]
  exact ⟨_, rfl⟩

end

end

end

end SkipList
