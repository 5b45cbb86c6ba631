import Mathlib.Data.List.Nodup
/-!
# Cursor — a cursor into a list whose elements come and go

Elements are told apart by a key, as nodes of a linked list are by their address.  `Points` says that a cursor is where
the work on the list goes on: nothing before it is pending, and without a cursor nothing is.  `coalesce` is the list
after an element has been joined with its neighbours where those are gaps.
-/
namespace Cursor

open List

variable {α κ : Type*} {key : α → κ} {pending : α → Prop} {x y : α} {l l' pre post : List α} {u : Option κ} {k : κ}

/-- The cursor `u` is at an element of the list, or past its end, and nothing before it is pending. -/
def Points (key : α → κ) (pending : α → Prop) : List α → Option κ → Prop
  | [], u => u = none
  | x :: l, u => u = some (key x) ∨ (¬ pending x ∧ Points key pending l u)

theorem Points.head (l : List α) : Points key pending l (l.head?.map key) := by
  cases l with
  | nil => rfl
  | cons x l => exact .inl rfl

theorem Points.of_none : ∀ {l : List α}, Points key pending l none → ∀ x ∈ l, ¬ pending x
  | y :: _, .inr ⟨hy, h⟩, x, hx => by
    rcases mem_cons.1 hx with rfl | hx
    · exact hy
    · exact h.of_none x hx

theorem points_none (h : ∀ x ∈ l, ¬ pending x) : Points key pending l none := by
  induction l with
  | nil => rfl
  | cons x l ih => exact .inr ⟨h x (by simp), ih (forall_mem_cons.1 h).2⟩

theorem Points.mem : ∀ {l : List α}, Points key pending l (some k) → k ∈ l.map key
  | x :: l, h => by
    rcases h with h | ⟨_, h⟩
    · rw [Option.some.inj h]
      exact mem_cons_self
    · exact mem_cons_of_mem _ h.mem

theorem Points.before [DecidableEq κ] : ∀ {l : List α}, Points key pending l u →
    ∀ x ∈ l.takeWhile (fun x => decide (some (key x) ≠ u)), ¬ pending x
  | y :: l, h, x, hx => by
    by_cases hy : some (key y) = u
    · rw [takeWhile_cons_of_neg (by simpa using hy)] at hx
      cases hx
    rw [takeWhile_cons_of_pos (by simpa using hy)] at hx
    obtain ⟨hyp, h⟩ := h.resolve_left (Ne.symm hy)
    rcases mem_cons.1 hx with rfl | hx
    · exact hyp
    · exact h.before x hx

theorem Points.before_of_nodup : ∀ {pre : List α}, ((pre ++ x :: l).map key).Nodup →
    Points key pending (pre ++ x :: l) (some (key x)) → ∀ y ∈ pre, ¬ pending y
  | z :: pre, hnd, h, y, hy => by
    obtain ⟨hz, hnd⟩ := nodup_cons.1 hnd
    rcases h with h | ⟨hzp, h⟩
    · refine absurd ?_ hz
      rw [← Option.some.inj h]
      exact mem_map_of_mem (by simp)
    · rcases mem_cons.1 hy with rfl | hy
      · exact hzp
      · exact h.before_of_nodup hnd y hy

theorem Points.append_left (h : Points key pending l u) (hpre : ∀ x ∈ pre, ¬ pending x) :
    Points key pending (pre ++ l) u := by
  induction pre with
  | nil => exact h
  | cons x pre ih => exact .inr ⟨hpre x (by simp), ih (forall_mem_cons.1 hpre).2⟩

theorem Points.append_right (l' : List α) : ∀ {l : List α}, Points key pending l (some k) →
    Points key pending (l ++ l') (some k)
  | _ :: _, .inl h => .inl h
  | _ :: _, .inr ⟨hx, h⟩ => .inr ⟨hx, h.append_right l'⟩

theorem Points.append (h : Points key pending l u) (h' : Points key pending l' u') :
    Points key pending (l ++ l') (u.or u') := by
  cases u with
  | none => exact h'.append_left h.of_none
  | some k => exact h.append_right l'

theorem Points.set_last (hk : key y = key x) : ∀ {l : List α}, Points key pending (l ++ [x]) (some k) →
    Points key pending (l ++ [y]) (some k)
  | [], .inl h => .inl (by rw [h, hk])
  | _ :: _, .inl h => .inl h
  | _ :: _, .inr ⟨hz, h⟩ => .inr ⟨hz, h.set_last hk⟩

theorem Points.congr {key' : β → κ} {pending' : β → Prop} : ∀ {l : List α} {l' : List β},
    List.Forall₂ (fun x y => key' y = key x ∧ (pending' y → pending x)) l l' →
      Points key pending l u → Points key' pending' l' u
  | _, _, .nil, h => h
  | _, _, .cons ⟨hk, _⟩ _, .inl h => .inl (by rw [h, hk])
  | _, _, .cons ⟨_, hp⟩ hl, .inr ⟨hx, h⟩ => .inr ⟨fun hy => hx (hp hy), h.congr hl⟩

theorem points_map {key : β → κ} {pending : β → Prop} (f : α → β) : ∀ {l : List α},
    Points key pending (l.map f) u ↔ Points (fun x => key (f x)) (fun x => pending (f x)) l u
  | [] => Iff.rfl
  | _ :: _ => or_congr Iff.rfl (and_congr Iff.rfl (points_map f))

theorem Points.tail [DecidableEq κ] (h : Points key pending (x :: l) u) :
    Points key pending l (if u = some (key x) then l.head?.map key else u) := by
  split
  · exact .head l
  · exact (h.resolve_left ‹_›).2

theorem Points.sublist : ∀ {l' l : List α}, l'.Sublist l → (l.map key).Nodup → (∀ k, u = some k → k ∈ l'.map key) →
    Points key pending l u → Points key pending l' u
  | _, _, .slnil, _, _, h => h
  | _, _, .cons x hs, hnd, hmem, h => by
    obtain ⟨hx, hnd⟩ := nodup_cons.1 hnd
    rcases h with h | ⟨_, h⟩
    · exact absurd ((hs.map key).subset (hmem (key x) h)) hx
    · exact h.sublist hs hnd hmem
  | _, _, .cons_cons x hs, hnd, hmem, h => by
    obtain ⟨hx, hnd⟩ := nodup_cons.1 hnd
    rcases h with h | ⟨hxp, h⟩
    · exact .inl h
    refine .inr ⟨hxp, h.sublist hs hnd fun k hk => ?_⟩
    rcases mem_cons.1 (hmem k hk) with rfl | hk'
    · subst hk
      exact absurd h.mem hx
    · exact hk'

/-! ## Keys from a pool -/

structure Fresh (ks : List Nat) (n : Nat) : Prop where
  nodup : ks.Nodup
  lt : ∀ k ∈ ks, k < n

theorem Fresh.sublist (h : Fresh ks n) (hs : ks'.Sublist ks) : Fresh ks' n :=
  ⟨h.nodup.sublist hs, fun k hk => h.lt k (hs.subset hk)⟩

theorem Fresh.grow (h : Fresh ks n) (hp : ks'.Perm (ks ++ List.range' n m)) : Fresh ks' (n + m) := by
  refine ⟨hp.nodup_iff.2 (nodup_append.2 ⟨h.nodup, nodup_range', fun a ha b hb => ?_⟩), fun k hk => ?_⟩
  · have := h.lt a ha
    have := (mem_range'_1.1 hb).1
    omega
  rcases mem_append.1 (hp.mem_iff.1 hk) with hk | hk
  · have := h.lt k hk
    omega
  · exact (mem_range'_1.1 hk).2

/-! ## Joining an element with the gaps next to it -/

/-- The list with `r` between `pre` and `post`, joined with the gaps next to it: a gap behind takes over `r` and the gap
before it, and a gap before it takes over `r`. -/
def coalesce (gap : α → Bool) (pre : List α) (r : α) (post : List α) : List α :=
  (if pre.getLast?.any gap ∧ post.head?.any gap then pre.dropLast else pre) ++
    (if pre.getLast?.any gap ∨ post.head?.any gap then post else r :: post)

variable {gap : α → Bool} {r : α}

theorem coalesce_sublist (gap : α → Bool) (pre : List α) (r : α) (post : List α) : (coalesce gap pre r post).Sublist
    (pre ++ if pre.getLast?.any gap ∨ post.head?.any gap then post else r :: post) := by
  refine List.Sublist.append ?_ (.refl _)
  split
  · exact dropLast_sublist pre
  · exact .refl pre

theorem coalesce_append (hy : gap y = false) (pre post' : List α) (r : α) :
    coalesce gap (pre ++ y :: l) r post' = pre ++ y :: coalesce gap l r post' := by
  unfold coalesce
  cases l with
  | nil => simp [hy]
  | cons z l =>
    have hlast : (pre ++ y :: z :: l).getLast? = (z :: l).getLast? := by simp [getLast?_cons]
    have hdrop : (pre ++ y :: z :: l).dropLast = pre ++ y :: (z :: l).dropLast := by
      rw [dropLast_append_of_ne_nil (by simp)]
      rfl
    rw [hlast, hdrop]
    split <;> rw [append_assoc, cons_append]

theorem suffix_coalesce (gap : α → Bool) (pre : List α) (r : α) (post : List α) :
    post.IsSuffix (coalesce gap pre r post) := by
  refine List.IsSuffix.trans ?_ (suffix_append _ _)
  split
  · exact suffix_refl post
  · exact suffix_cons r post

theorem mem_dropWhile_of_border (hy : gap y = false) (hx : x ∈ y :: l) : x ∈ (pre ++ y :: l).dropWhile gap := by
  induction pre with
  | nil =>
    rw [nil_append, dropWhile_cons_of_neg (by simp [hy])]
    exact hx
  | cons z pre ih =>
    rw [cons_append]
    by_cases hz : gap z = true
    · rw [dropWhile_cons_of_pos hz]
      exact ih
    · rw [dropWhile_cons_of_neg hz]
      exact mem_cons_of_mem z (mem_append_right pre hx)

end Cursor
