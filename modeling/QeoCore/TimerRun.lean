import Mathlib.Data.List.Perm.Subperm
import QeoCore.Timer
/-!
# TimerRun — timers that stay silent

A timer with a callback is in exactly one of the two lists (`Lists`), as long as nobody stops a timer that the manager
has just popped and nobody puts it in a list that it is in already (`Orderly`).
-/
namespace Qeo.Timers

open List Option Function Linked Trace

/-- `l1` is what `tmr_list` chains and `l2` what `phead` does: each timer once, and exactly those with a callback. -/
structure Lists (s : State) (l1 l2 : List Nat) : Prop where
  list : Seg links s.mem s.tmrList l1 none
  pending : Seg links s.mem s.phead l2 none
  nodup : (l1 ++ l2).Nodup
  tail : l2 ≠ [] → s.ptail = l2.getLast?
  active : ∀ t n, s.mem t = some n → (n.tcbf ≠ none ↔ t ∈ l1 ++ l2)

def Consistent (s : State) : Prop := ∃ l1 l2, Lists s l1 l2

structure Inv (size : Nat) (s : State) : Prop where
  consistent : Consistent s
  bound : ∀ t n, s.mem t = some n → t < size
  popped : ∀ t fct user lockp, s.manager = .popped t fct user lockp → s.activeTimer = some t ∧ ∃ n, s.mem t = some n

variable {size : Nat} {s s' : State} {l1 l2 : List Nat} {t : Nat} {n : Timer} {mem' : Nat → Option Timer}

theorem Lists.live (h : Lists s l1 l2) (ht : t ∈ l1 ++ l2) : ∃ n, s.mem t = some n := by
  rcases mem_append.1 ht with ht | ht
  · exact h.list.live t ht
  · exact h.pending.live t ht

theorem length_le_size (hb : ∀ t n, s.mem t = some n → t < size) {l : List Nat} (hl : ∀ t ∈ l, ∃ n, s.mem t = some n)
    (hn : l.Nodup) : l.length ≤ size := by
  have hsub : l ⊆ List.range size := by
    intro t ht
    obtain ⟨n, hm⟩ := hl t ht
    exact mem_range.2 (hb t n hm)
  have hle := (subperm_of_subset hn hsub).length_le
  rwa [length_range] at hle

/-! ## Stores -/

structure Kept (s s' : State) : Prop where
  manager : s'.manager = s.manager
  activeTimer : s'.activeTimer = s.activeTimer
  live : ∀ a, (s'.mem a).isSome = (s.mem a).isSome

def SameBut (t : Nat) (mem mem' : Nat → Option Timer) : Prop :=
  ∀ a, a ≠ t → (mem' a).map Timer.tcbf = (mem a).map Timer.tcbf

theorem callback_of_relinked (h : Relinked links mem mem') (a : Nat) :
    (mem' a).map Timer.tcbf = (mem a).map Timer.tcbf := by
  have ha := congrArg (Option.map Timer.tcbf) (h a)
  rw [Option.map_map, Option.map_map] at ha
  exact ha

theorem isSome_of_relinked (h : Relinked links mem mem') (a : Nat) : (mem' a).isSome = (mem a).isSome := by
  have ha := congrArg isSome (callback_of_relinked h a)
  rwa [isSome_map, isSome_map] at ha

theorem isSome_store (hn : s.mem t = some n) (m : Timer) (a : Nat) :
    ((s.store t m).mem a).isSome = (s.mem a).isSome := by
  by_cases ha : a = t
  · subst ha
    simp [State.store, update_self, hn]
  · simp only [State.store, update_of_ne ha]

theorem sameBut_store (s : State) (t : Nat) (m : Timer) : SameBut t s.mem (s.store t m).mem := by
  intro a ha
  simp only [State.store, update_of_ne ha]

theorem seg_store (h : Seg links s.mem p l q) (hn : s.mem t = some n)
    (hm : m.next = n.next) : Seg links (s.store t m).mem p l q := by
  apply h.frame
  intro a _
  by_cases ha : a = t
  · subst ha
    simp only [State.store, update_self, hn, map_some]
    exact congrArg some hm
  · simp only [State.store, update_of_ne ha]

theorem Lists.active_of (h : Lists s l1 l2) {l : List Nat} (hsame : SameBut t s.mem mem')
    (hl : ∀ a, a ≠ t → (a ∈ l ↔ a ∈ l1 ++ l2)) (ht : ∀ n, mem' t = some n → (n.tcbf ≠ none ↔ t ∈ l)) :
    ∀ a n, mem' a = some n → (n.tcbf ≠ none ↔ a ∈ l) := by
  intro a m hm
  by_cases ha : a = t
  · subst ha
    exact ht m hm
  have hcb := hsame a ha
  rw [hm] at hcb
  obtain ⟨k, hk, hkm⟩ := map_eq_some_iff.1 hcb.symm
  rw [hl a ha, ← h.active a k hk, hkm]

/-! ## The operations -/

theorem mem_without (h : (p ++ t :: q).Nodup) (a : Nat) : a ∈ p ++ q ↔ a ∈ p ++ t :: q ∧ a ≠ t := by
  have ht : t ∉ p ++ q := (nodup_cons.1 (perm_middle.nodup_iff.1 h)).1
  have hmid : a ∈ p ++ t :: q ↔ a = t ∨ a ∈ p ++ q := by rw [perm_middle.mem_iff, mem_cons]
  rw [hmid]
  constructor
  · intro ha
    exact ⟨.inr ha, fun he => ht (he ▸ ha)⟩
  · rintro ⟨ha | ha, hne⟩
    · exact absurd ha hne
    · exact ha

def StopsTo (size t : Nat) (s : State) (l1 l2 : List Nat) : Prop :=
  ∃ s', s.tmrStop size t = some s' ∧ Kept s s' ∧
    ∃ l1' l2', Lists s' l1' l2' ∧ ∀ a, a ∈ l1' ++ l2' ↔ a ∈ l1 ++ l2 ∧ a ≠ t

section
variable (h : Lists s l1 l2)
include h

theorem Lists.active_stopped {l : List Nat} (hrel : Relinked links (s.store t { n with tcbf := none }).mem mem')
    (hsub : ∀ a, a ∈ l ↔ a ∈ l1 ++ l2 ∧ a ≠ t) : ∀ a m, mem' a = some m → (m.tcbf ≠ none ↔ a ∈ l) := by
  refine h.active_of (t := t) (fun a ha => ?_) (fun a ha => ?_) fun m hm => ?_
  · rw [callback_of_relinked hrel]
    exact sameBut_store s t _ a ha
  · rw [hsub]
    exact and_iff_left ha
  · have hcb := callback_of_relinked hrel t
    rw [hm, show (s.store t _).mem t = _ from update_self ..] at hcb
    exact iff_of_false (fun h => h (some.inj hcb)) fun h => ((hsub t).1 h).2 rfl

section
variable (hb : ∀ t n, s.mem t = some n → t < size)
include hb

theorem tmrStop_list (hn : s.mem t = some n)
    (hcb : n.tcbf ≠ none) (ht : t ∈ l1) : StopsTo size t s l1 l2 := by
  obtain ⟨hnd1, hnd2, hdis⟩ := nodup_append.1 h.nodup
  have hlen := length_le_size hb h.list.live hnd1
  have hlist := seg_store h.list (m := { n with tcbf := none }) hn rfl
  have hpend := seg_store h.pending (m := { n with tcbf := none }) hn rfl
  have hself : (s.store t { n with tcbf := none }).mem t = some { n with tcbf := none } := update_self ..
  obtain ⟨p, q, rfl, hw⟩ := walk_mem hlist hlen ht
  obtain ⟨mem', head', hr, hseg, hsame, hrel⟩ := relink_out hlist hnd1 hself
  have hnd := h.nodup
  rw [append_assoc, cons_append] at hnd
  have hmem := mem_without hnd
  have hsub : ∀ a, a ∈ (p ++ q) ++ l2 ↔ a ∈ (p ++ t :: q) ++ l2 ∧ a ≠ t := by
    intro a
    rw [append_assoc, hmem, append_assoc, cons_append]
  refine ⟨{ s with mem := mem', tmrList := head' }, ?_, ⟨rfl, rfl, fun a => ?_⟩, p ++ q, l2,
    ⟨hseg, ?_, ?_, h.tail, h.active_stopped hrel hsub⟩, hsub⟩
  · unfold State.tmrStop
    simp only [hn, bind_some, if_neg hcb]
    rw [show (s.store t { n with tcbf := none }).tmrList = s.tmrList from rfl, hw]
    simp only [bind_some, reduceCtorEq, if_false, State.unlink, hself]
    rw [show relink links _ _ _ n.next = _ from hr]
    rfl
  · rw [isSome_of_relinked hrel, isSome_store hn]
  · apply hpend.frame
    intro b hb2
    exact congrArg (Option.map links.next) (hsame b fun hb1 => hdis b (mem_append_left _ hb1) b hb2 rfl)
  · rw [append_assoc]
    exact (nodup_cons.1 (perm_middle.nodup_iff.1 hnd)).2

theorem tmrStop_pending (hn : s.mem t = some n)
    (hcb : n.tcbf ≠ none) (ht : t ∉ l1) : StopsTo size t s l1 l2 := by
  obtain ⟨hnd1, hnd2, hdis⟩ := nodup_append.1 h.nodup
  have ht2 : t ∈ l2 := ((mem_append.1 ((h.active t n hn).1 hcb)).resolve_left ht)
  have hlen1 := length_le_size hb h.list.live hnd1
  have hlen2 := length_le_size hb h.pending.live hnd2
  have hlist := seg_store h.list (m := { n with tcbf := none }) hn rfl
  have hpend := seg_store h.pending (m := { n with tcbf := none }) hn rfl
  have hself : (s.store t { n with tcbf := none }).mem t = some { n with tcbf := none } := update_self ..
  obtain ⟨prev, hw1⟩ := walk_not_mem hlist hlen1 ht
  obtain ⟨p, q, rfl, hw⟩ := walk_mem hpend hlen2 ht2
  obtain ⟨mem', head', hr, hseg, hsame, hrel⟩ := relink_out hpend hnd2 hself
  have hnd := h.nodup
  rw [← append_assoc] at hnd
  have hmem := mem_without hnd
  have hsub : ∀ a, a ∈ l1 ++ (p ++ q) ↔ a ∈ l1 ++ (p ++ t :: q) ∧ a ≠ t := by
    intro a
    rw [← append_assoc, hmem, ← append_assoc]
  have hnext : n.next = q.head? := by
    obtain ⟨r, -, -, m, hm, hq⟩ := seg_append.1 h.pending
    rw [hn] at hm
    cases hm
    exact hq.head
  refine ⟨{ s with mem := mem', phead := head', ptail := if n.next = none then p.getLast? else s.ptail }, ?_,
    ⟨rfl, rfl, fun a => ?_⟩, l1, p ++ q, ⟨?_, hseg, ?_, ?_, h.active_stopped hrel hsub⟩, hsub⟩
  · have hhead : (s.store t { n with tcbf := none }).phead ≠ none := by
      rw [show (s.store t { n with tcbf := none }).phead = s.phead from rfl, h.pending.head]
      cases p <;> exact nofun
    unfold State.tmrStop
    simp only [hn, bind_some, if_neg hcb]
    rw [show (s.store t { n with tcbf := none }).tmrList = s.tmrList from rfl, hw1]
    simp only [bind_some, if_true, if_neg hhead]
    rw [show (s.store t { n with tcbf := none }).phead = s.phead from rfl, hw]
    simp only [bind_some, reduceCtorEq, if_false, State.unlink, hself]
    rw [show relink links _ _ _ n.next = _ from hr]
    rfl
  · rw [isSome_of_relinked hrel, isSome_store hn]
  · apply hlist.frame
    intro b hb1
    exact congrArg (Option.map links.next) (hsame b fun hb2 => hdis b hb1 b (mem_append_left _ hb2) rfl)
  · rw [← append_assoc]
    exact (nodup_cons.1 (perm_middle.nodup_iff.1 hnd)).2
  intro hne
  have htail := h.tail (by cases p <;> exact nofun)
  rw [hnext]
  cases q with
  | nil => rw [head?_nil, if_pos rfl, append_nil]
  | cons b q =>
    rw [if_neg nofun, htail]
    simp

theorem tmrStop_spec (hn : s.mem t = some n) : StopsTo size t s l1 l2 := by
  by_cases hcb : n.tcbf = none
  · have ht : t ∉ l1 ++ l2 := fun hm => (h.active t n hn).2 hm hcb
    refine ⟨s, by simp only [State.tmrStop, hn, bind_some, if_pos hcb], ⟨rfl, rfl, fun _ => rfl⟩, l1, l2, h, ?_⟩
    exact fun a => ⟨fun ha => ⟨ha, fun he => ht (he ▸ ha)⟩, And.left⟩
  · by_cases ht : t ∈ l1
    · exact tmrStop_list h hb hn hcb ht
    · exact tmrStop_pending h hb hn hcb ht

theorem insert_spec (hn : s.mem c.t = some n)
    (hcb : n.tcbf = none) : ∃ s', s.insert size c = some s' ∧ Kept s s' ∧
      ∃ l1', Lists s' l1' l2 ∧ ∀ a, a ∈ l1' ++ l2 ↔ a = c.t ∨ a ∈ l1 ++ l2 := by
  have ht : c.t ∉ l1 ++ l2 := fun hm => (h.active c.t n hn).2 hm hcb
  rw [mem_append, not_or] at ht
  obtain ⟨hnd1, hnd2, hdis⟩ := nodup_append.1 h.nodup
  let m : Timer := { n with time := c.now + c.ticks, user := c.user, tcbf := some c.fct, lockp := c.lockp }
  have hlist := seg_store h.list (m := m) hn rfl
  have hself : (s.store c.t m).mem c.t = some m := update_self ..
  let stop : Nat → Timer → Bool := fun _ p =>
    !(maxTimeDiff < sysTicksdiff c.now p.time || sysTicksdiff c.now p.time < sysTicksdiff c.now (c.now + c.ticks))
  obtain ⟨p, q, rfl, hw, -, -⟩ := @walk_seg _ links _ stop _ _ none _ hlist (length_le_size hb h.list.live hnd1)
  rw [or_none] at hw
  -- the timer points to what follows before anything points to it
  let s2 := (s.store c.t m).store c.t { m with next := q.head? }
  have hlist2 : Seg links s2.mem s.tmrList (p ++ q) none := hlist.update ht.1 _
  have hpend2 : Seg links s2.mem s.phead l2 none := (seg_store h.pending (m := m) hn rfl).update ht.2 _
  have hself2 : s2.mem c.t = some { m with next := q.head? } := update_self ..
  obtain ⟨mem', head', hr, hseg, hsame, hrel⟩ :=
    relink_in hlist2 hnd1 (fun hm => ht.1 (mem_append_left _ hm)) hself2 rfl
  have hmem : ∀ a, a ∈ (p ++ c.t :: q) ++ l2 ↔ a = c.t ∨ a ∈ (p ++ q) ++ l2 := by
    intro a
    rw [append_assoc, cons_append, perm_middle.mem_iff, mem_cons, ← append_assoc]
  refine ⟨{ s with mem := mem', tmrList := head' }, ?_, ⟨rfl, rfl, fun a => ?_⟩, p ++ c.t :: q,
    ⟨hseg, ?_, ?_, h.tail, h.active_of (t := c.t) ?_ ?_ ?_⟩, hmem⟩
  · unfold State.insert
    simp only [hn, bind_some]
    rw [show walk links (s.store c.t m).mem _ size none (s.store c.t m).tmrList = _ from hw]
    rw [show (s.store c.t m).mem c.t = some m from hself]
    simp only [bind_some]
    rw [show relink links s2.mem s2.tmrList _ _ = _ from hr]
    rfl
  · rw [isSome_of_relinked hrel, isSome_store hself, isSome_store hn]
  · apply hpend2.frame
    intro b hb2
    exact congrArg (Option.map links.next) (hsame b fun hb1 => hdis b (mem_append_left _ hb1) b hb2 rfl)
  · rw [append_assoc, cons_append, perm_middle.nodup_iff, nodup_cons, ← append_assoc]
    exact ⟨fun hm => (mem_append.1 hm).elim ht.1 ht.2, h.nodup⟩
  · intro a ha
    rw [callback_of_relinked hrel]
    exact (sameBut_store (s.store c.t m) c.t _ a ha).trans (sameBut_store s c.t _ a ha)
  · intro a ha
    rw [hmem]
    exact or_iff_right ha
  · intro k hk
    have hcb' := callback_of_relinked hrel c.t
    rw [show mem' c.t = some k from hk, hself2] at hcb'
    have hsome : k.tcbf = some c.fct := some.inj hcb'
    exact iff_of_true (by rw [hsome]; exact nofun) ((hmem c.t).2 (.inl rfl))

end

theorem leave_spec : ∃ s', s.leave = some s' ∧ s'.manager = .outside ∧
    s'.activeTimer = s.activeTimer ∧ (∀ a, (s'.mem a).isSome = (s.mem a).isSome) ∧ Lists s' (l2 ++ l1) [] := by
  rcases eq_nil_or_concat l2 with rfl | ⟨p, a, rfl⟩
  · have hh : s.phead = none := h.pending
    refine ⟨{ s with manager := .outside }, by simp only [State.leave, hh], rfl, rfl, fun _ => rfl, ?_⟩
    exact ⟨h.list, h.pending, h.nodup, h.tail, h.active⟩
  rw [concat_eq_append] at *
  have hmem : a ∈ p ++ [a] := mem_append_right _ mem_cons_self
  obtain ⟨hnd1, hnd2, hdis⟩ := nodup_append.1 h.nodup
  have ha : a ∉ p := fun hm => (nodup_append.1 hnd2).2.2 a hm a mem_cons_self rfl
  obtain ⟨n, hn⟩ := h.pending.live a hmem
  have htail : s.ptail = some a := by rw [h.tail (by simp), getLast?_concat]
  obtain ⟨x, hx⟩ : ∃ x, s.phead = some x := by
    rw [h.pending.head]
    cases p <;> exact ⟨_, rfl⟩
  refine ⟨{ s.store a { n with next := s.tmrList } with tmrList := s.phead, phead := none, manager := .outside },
    by simp only [State.leave, hx, htail, hn, bind_some, map_some], rfl, rfl, isSome_store hn _,
    ⟨?_, rfl, ?_, nofun, ?_⟩⟩
  · refine seg_append.2 ⟨s.tmrList, h.pending.setLast ha n s.tmrList, h.list.update (fun hm => ?_) _⟩
    exact hdis a hm a hmem rfl
  · rw [append_nil]
    exact perm_append_comm.nodup_iff.1 h.nodup
  apply h.active_of (t := a)
  · exact sameBut_store s a _
  · intro b _
    rw [append_nil, perm_append_comm.mem_iff]
  intro k hk
  have hk' : k = { n with next := s.tmrList } := by simpa [State.store] using hk.symm
  rw [hk', append_nil, perm_append_comm.mem_iff]
  exact h.active a n hn

theorem iterate_spec (now : Ticks) : ∃ s', s.iterate now = some s' ∧ (∀ a, (s'.mem a).isSome = (s.mem a).isSome) ∧
    (s'.manager = .outside ∧ Lists s' (l2 ++ l1) [] ∨
      ∃ t fct user lockp rest, l1 = t :: rest ∧ s'.manager = .popped t fct user lockp ∧ s'.activeTimer = some t ∧
        Lists s' rest l2) := by
  obtain ⟨sl, hl, hout, -, hlive, hlists⟩ := leave_spec h
  cases l1 with
  | nil =>
    have hh : s.tmrList = none := h.list
    exact ⟨sl, by simp only [State.iterate, hh, hl], hlive, .inl ⟨hout, hlists⟩⟩
  | cons t rest =>
    obtain ⟨hh, n, hn, hrest⟩ := h.list
    have hnext : links.next n = n.next := rfl
    by_cases hd : sysTicksdiff now n.time ≠ 0 ∧ sysTicksdiff now n.time < maxTimeDiff
    · refine ⟨sl, ?_, hlive, .inl ⟨hout, hlists⟩⟩
      simp only [State.iterate, hh, hn, bind_some]
      rw [if_pos hd, hl]
    have hcb := (h.active t n hn).2 (mem_append_left _ mem_cons_self)
    obtain ⟨fct, hfct⟩ := ne_none_iff_exists'.1 hcb
    have ht : t ∉ rest ++ l2 := (nodup_cons.1 h.nodup).1
    refine ⟨{ s.store t { n with tcbf := none } with
      tmrList := n.next, activeTimer := some t, manager := .popped t fct n.user n.lockp }, ?_, isSome_store hn _,
      .inr ⟨t, fct, n.user, n.lockp, rest, rfl, rfl, rfl, ⟨?_, ?_, (nodup_cons.1 h.nodup).2, h.tail, ?_⟩⟩⟩
    · simp only [State.iterate, hh, hn, bind_some]
      rw [if_neg hd]
      simp only [hfct]
    · exact seg_store hrest (m := { n with tcbf := none }) hn rfl
    · exact seg_store h.pending (m := { n with tcbf := none }) hn rfl
    apply h.active_of (t := t)
    · exact sameBut_store s t _
    · intro a ha
      rw [cons_append, mem_cons, or_iff_right ha]
    intro m hm
    have hm' : m = { n with tcbf := none } := by simpa [State.store] using hm.symm
    rw [hm']
    exact iff_of_false (fun h => h rfl) ht

theorem requeue_spec (hact : s.activeTimer = some t) (hn : s.mem t = some n) (hcb : n.tcbf = none)
    (fct : Nat) : ∃ s', s.requeue t fct = some s' ∧ s'.manager = .looping ∧
      (∀ a, (s'.mem a).isSome = (s.mem a).isSome) ∧ Lists s' l1 (l2 ++ [t]) := by
  have ht : t ∉ l1 ++ l2 := fun hm => (h.active t n hn).2 hm hcb
  have ht' := ht
  rw [mem_append, not_or] at ht'
  obtain ⟨hnd1, hnd2, hdis⟩ := nodup_append.1 h.nodup
  have hnodup : (l1 ++ (l2 ++ [t])).Nodup := by
    rw [← append_assoc]
    refine nodup_append.2 ⟨h.nodup, pairwise_singleton _ t, fun a ha b hb he => ht ?_⟩
    rwa [← mem_singleton.1 hb, ← he]
  have hmem : ∀ a, a ≠ t → (a ∈ l1 ++ (l2 ++ [t]) ↔ a ∈ l1 ++ l2) := by
    intro a ha
    rw [← append_assoc, mem_append, mem_singleton, or_iff_left ha]
  have hlast : t ∈ l1 ++ (l2 ++ [t]) := by simp
  let m : Timer := { n with tcbf := some fct }
  let s1 : State := { s.store t m with activeTimer := none, manager := .looping }
  have hself1 : s1.mem t = some m := update_self ..
  have hne : s.activeTimer ≠ none := by rw [hact]; exact nofun
  -- the store of the link behind the last pending timer, if there is one
  have hpend : ∃ s2, s1.pend t = some s2 ∧ s2.mem t = some m ∧ s2.manager = .looping ∧ s2.tmrList = s.tmrList ∧
      (∀ a, (s2.mem a).isSome = (s1.mem a).isSome) ∧ SameBut t s1.mem s2.mem ∧ Seg links s2.mem s2.phead l2 (some t) ∧
      Seg links s2.mem s.tmrList l1 none := by
    have hlist1 : Seg links s1.mem s.tmrList l1 none := seg_store h.list (m := m) hn rfl
    have hpend1 : Seg links s1.mem s.phead l2 none := seg_store h.pending (m := m) hn rfl
    rcases eq_nil_or_concat l2 with rfl | ⟨p, a, rfl⟩
    · have hh : s1.phead = none := h.pending
      exact ⟨{ s1 with phead := some t }, by simp only [State.pend, hh], hself1, rfl, rfl, fun _ => rfl, fun _ _ => rfl,
        rfl, hlist1⟩
    rw [concat_eq_append] at *
    have ha : a ∈ p ++ [a] := mem_append_right _ mem_cons_self
    have hap : a ∉ p := fun hm => (nodup_append.1 hnd2).2.2 a hm a mem_cons_self rfl
    have hat : t ≠ a := fun he => ht'.2 (he ▸ ha)
    obtain ⟨k, hk⟩ := hpend1.live a ha
    have htail : s1.ptail = some a := (h.tail (by simp)).trans getLast?_concat
    obtain ⟨x, hx⟩ : ∃ x, s1.phead = some x := by
      rw [show s1.phead = s.phead from rfl, h.pending.head]
      cases p <;> exact ⟨_, rfl⟩
    refine ⟨s1.store a { k with next := some t }, ?_, ?_, rfl, rfl, isSome_store hk _, ?_, ?_, ?_⟩
    · simp [State.pend, hx, htail, hk]
    · exact (update_of_ne hat ..).trans hself1
    · intro b _
      by_cases hba : b = a
      · subst hba
        simp [State.store, update_self, hk]
      · simp only [State.store, update_of_ne hba]
    · exact hpend1.setLast hap k (some t)
    · exact hlist1.update (fun hm => hdis a hm a ha rfl) _
  obtain ⟨s2, hp, hself2, hman, hlist, hlive, hsame, hseg, hseg1⟩ := hpend
  refine ⟨{ s2.store t { m with next := none } with ptail := some t }, ?_, hman, ?_, ⟨?_, ?_, hnodup, ?_, ?_⟩⟩
  · simp only [State.requeue, if_neg hne, hn, bind_some]
    rw [show State.pend s1 t = _ from hp]
    simp [hself2]
  · intro a
    exact (isSome_store hself2 _ a).trans ((hlive a).trans (isSome_store hn m a))
  · exact hlist ▸ hseg1.update ht'.1 _
  · exact seg_append.2 ⟨some t, hseg.update ht'.2 _, rfl, _, update_self .., rfl⟩
  · exact fun _ => getLast?_concat.symm
  apply h.active_of (t := t)
  · intro a ha
    rw [show _ = _ from sameBut_store s2 t _ a ha, hsame a ha]
    exact sameBut_store s t m a ha
  · exact hmem
  intro k hk
  have hk' : k = { m with next := none } := by simpa [State.store] using hk.symm
  exact iff_of_true (by rw [hk']; exact nofun) hlast

end

/-! ## Runs -/

def State.callback (s : State) (t : Nat) : Option Nat := (s.mem t).bind Timer.tcbf

open State

def Manager.awaits (t : Nat) : Manager → Bool
  | .popped t' _ _ _ => t' = t
  | _ => false

def Manager.runs (t : Nat) : Manager → Bool
  | .running t' => t' = t
  | _ => false

/-- Nobody stops a timer that was just popped; nobody puts a timer with a callback into a list, neither a start whose
timer was started by another thread meanwhile nor the manager if its popped timer was. -/
def Orderly (s : State) : Event → Prop
  | .stop t | .restop _ t => s.manager.awaits t = false
  | .insert _ t => s.callback t = none
  | .tryLock free =>
    match s.manager with
    | .popped t _ _ lockp => lockp ≠ none → free = false → s.callback t = none
    | _ => True
  | _ => True

structure Quiet (t : Nat) (s : State) : Prop where
  callback : s.callback t = none
  awaits : s.manager.awaits t = false
  runs : s.manager.runs t = false

theorem Lists.callback_iff (h : Lists s l1 l2) (t : Nat) : s.callback t = none ↔ t ∉ l1 ++ l2 := by
  unfold callback
  cases hm : s.mem t with
  | none =>
    refine iff_of_true rfl fun ht => ?_
    obtain ⟨n, hn⟩ := h.live ht
    rw [hm] at hn
    cases hn
  | some n => rw [← h.active t n hm, not_not]; rfl

theorem bound_of_live (hb : ∀ t n, s.mem t = some n → t < size) (hl : ∀ a, (s'.mem a).isSome = (s.mem a).isSome) :
    ∀ t n, s'.mem t = some n → t < size := by
  intro t n hn
  have hs := hl t
  rw [hn] at hs
  obtain ⟨m, hm⟩ := isSome_iff_exists.1 hs.symm
  exact hb t m hm

theorem Kept.inv (hi : Inv size s) (hk : Kept s s') (hl : Lists s' l1' l2') : Inv size s' := by
  refine ⟨⟨_, _, hl⟩, bound_of_live hi.bound hk.live, fun t fct user lockp hm => ?_⟩
  obtain ⟨ha, n, hn⟩ := hi.popped t fct user lockp (hk.manager ▸ hm)
  refine ⟨hk.activeTimer.trans ha, isSome_iff_exists.1 ?_⟩
  rw [hk.live, hn, isSome_some]

theorem Inv.withCalls (h : Inv size s) (calls : Nat → Option Call) : Inv size { s with calls := calls } :=
  ⟨h.consistent.imp fun _ h => h.imp fun _ h => ⟨h.list, h.pending, h.nodup, h.tail, h.active⟩, h.bound, h.popped⟩

theorem Quiet.withCalls (h : Quiet t s) (calls : Nat → Option Call) : Quiet t { s with calls := calls } :=
  ⟨h.callback, h.awaits, h.runs⟩

theorem tmrStop_keeps (hi : Inv size s) (h : s.tmrStop size t = some s') :
    Inv size s' ∧ s'.callback t = none ∧ s'.manager = s.manager ∧ ∀ a, Quiet a s → Quiet a s' := by
  obtain ⟨l1, l2, hl⟩ := hi.consistent
  obtain ⟨n, hn⟩ := Option.ne_none_iff_exists'.1 fun hm : s.mem t = none => by simp [tmrStop, hm] at h
  obtain ⟨s1, hst, hk, l1', l2', hl', hmem⟩ := tmrStop_spec hl hi.bound hn
  obtain rfl : s1 = s' := some.inj (hst.symm.trans h)
  refine ⟨hk.inv hi hl', ?_, hk.manager, fun a ha => ⟨?_, hk.manager ▸ ha.awaits, hk.manager ▸ ha.runs⟩⟩
  · rw [hl'.callback_iff, hmem]
    exact fun hm => hm.2 rfl
  · have hq := (hl.callback_iff a).1 ha.callback
    rw [hl'.callback_iff, hmem]
    exact fun hm => hq hm.1

theorem insert_keeps (hi : Inv size s) (hcb : s.callback c.t = none) (h : s.insert size c = some s') :
    Inv size s' ∧ ∀ a, a ≠ c.t → Quiet a s → Quiet a s' := by
  obtain ⟨l1, l2, hl⟩ := hi.consistent
  obtain ⟨n, hn⟩ := Option.ne_none_iff_exists'.1 fun hm : s.mem c.t = none => by simp [State.insert, hm] at h
  have hnone : n.tcbf = none := by
    rw [callback, hn] at hcb
    exact hcb
  obtain ⟨s1, hst, hk, l1', hl', hmem⟩ := insert_spec hl hi.bound hn hnone
  obtain rfl : s1 = s' := some.inj (hst.symm.trans h)
  refine ⟨hk.inv hi hl', fun a hne ha => ⟨?_, hk.manager ▸ ha.awaits, hk.manager ▸ ha.runs⟩⟩
  have hq := (hl.callback_iff a).1 ha.callback
  rw [hl'.callback_iff, hmem]
  exact fun hm => hm.elim hne hq

theorem iterate_keeps (hi : Inv size s) (h : s.iterate now = some s') :
    Inv size s' ∧ ∀ a, Quiet a s → Quiet a s' := by
  obtain ⟨l1, l2, hl⟩ := hi.consistent
  obtain ⟨s1, hst, hlive, hcase⟩ := iterate_spec hl now
  obtain rfl : s1 = s' := some.inj (hst.symm.trans h)
  rcases hcase with ⟨hm, hl'⟩ | ⟨t, fct, user, lockp, rest, rfl, hm, hact, hl'⟩
  · refine ⟨⟨⟨_, _, hl'⟩, bound_of_live hi.bound hlive, fun t fct user lockp h => ?_⟩, fun a ha => ⟨?_, ?_, ?_⟩⟩
    · rw [hm] at h
      cases h
    · have hq := (hl.callback_iff a).1 ha.callback
      rw [hl'.callback_iff, append_nil, perm_append_comm.mem_iff]
      exact hq
    · rw [hm]; rfl
    · rw [hm]; rfl
  have hmem : t ∈ t :: rest ++ l2 := mem_append_left _ mem_cons_self
  refine ⟨⟨⟨_, _, hl'⟩, bound_of_live hi.bound hlive, fun t' fct' user' lockp' h => ?_⟩, fun a ha => ?_⟩
  · rw [hm] at h
    cases h
    obtain ⟨n, hn⟩ := hl.live hmem
    refine ⟨hact, isSome_iff_exists.1 ?_⟩
    rw [hlive, hn, isSome_some]
  have hq := (hl.callback_iff a).1 ha.callback
  have hne : t ≠ a := fun he => hq (he ▸ hmem)
  refine ⟨?_, ?_, ?_⟩
  · rw [hl'.callback_iff]
    exact fun hm => hq (mem_cons_of_mem _ hm)
  · rw [hm]
    exact decide_eq_false hne
  · rw [hm]; rfl

theorem requeue_keeps (hi : Inv size s) (hm : s.manager = .popped t fct user lockp)
    (hcb : s.callback t = none) (h : s.requeue t fct = some s') : Inv size s' ∧ ∀ a, Quiet a s → Quiet a s' := by
  obtain ⟨l1, l2, hl⟩ := hi.consistent
  obtain ⟨hact, n, hn⟩ := hi.popped t fct user lockp hm
  have hnone : n.tcbf = none := by
    rw [callback, hn] at hcb
    exact hcb
  obtain ⟨s1, hst, hman, hlive, hl'⟩ := requeue_spec hl hact hn hnone fct
  obtain rfl : s1 = s' := some.inj (hst.symm.trans h)
  refine ⟨⟨⟨_, _, hl'⟩, bound_of_live hi.bound hlive, fun t fct user lockp h => ?_⟩, fun a ha => ⟨?_, ?_, ?_⟩⟩
  · rw [hman] at h
    cases h
  · have hq := (hl.callback_iff a).1 ha.callback
    have hne : a ≠ t := by
      intro he
      have haw := ha.awaits
      rw [hm, he] at haw
      simp [Manager.awaits] at haw
    rw [hl'.callback_iff, ← append_assoc, mem_append, mem_singleton, or_iff_left hne]
    exact hq
  · rw [hman]; rfl
  · rw [hman]; rfl

theorem Inv.withManager (h : Inv size s) (hm : ∀ t, m.awaits t = false) (active : Option Nat)
    (depth : Nat) : Inv size { s with manager := m, activeTimer := active, tmrCallbackActive := depth } := by
  refine ⟨h.consistent.imp fun _ h => h.imp fun _ h => ⟨h.list, h.pending, h.nodup, h.tail, h.active⟩, h.bound, ?_⟩
  rintro t fct user lockp rfl
  have ht := hm t
  simp [Manager.awaits] at ht

theorem step_keeps (hi : Inv size s) (ho : Orderly s e) (h : s.step size e = some s') :
    Inv size s' ∧ ∀ t, Quiet t s → (∀ k, e ≠ .insert k t) → Quiet t s' := by
  cases e with simp only [step] at h
  | start k t ticks user fct lockp now =>
    split at h
    · cases h
      exact ⟨hi.withCalls _, fun t ht _ => ht.withCalls _⟩
    · cases h
  | restop k t =>
    split at h
    · split_ifs at h
      obtain ⟨s1, hs1, rfl⟩ := map_eq_some_iff.1 h
      obtain ⟨hinv, -, -, hq⟩ := tmrStop_keeps hi hs1
      exact ⟨hinv.withCalls _, fun a ha _ => (hq a ha).withCalls _⟩
    · cases h
  | insert k t =>
    split at h
    · split_ifs at h with hc
      obtain ⟨s1, hs1, rfl⟩ := map_eq_some_iff.1 h
      obtain ⟨rfl, -, -⟩ := hc
      obtain ⟨hinv, hq⟩ := insert_keeps hi ho hs1
      exact ⟨hinv.withCalls _, fun a ha hne => (hq a (fun he => hne k (he ▸ rfl)) ha).withCalls _⟩
    · cases h
  | stop t =>
    split_ifs at h
    obtain ⟨hinv, -, -, hq⟩ := tmrStop_keeps hi h
    exact ⟨hinv, fun a ha _ => hq a ha⟩
  | enter =>
    split_ifs at h
    · cases h
      exact ⟨hi, fun a ha _ => ha⟩
    · cases h
      exact ⟨hi.withManager (m := .looping) (fun _ => rfl) _ _, fun a ha _ => ⟨ha.callback, rfl, rfl⟩⟩
  | iterate now =>
    split_ifs at h
    obtain ⟨hinv, hq⟩ := iterate_keeps hi h
    exact ⟨hinv, fun a ha _ => hq a ha⟩
  | tryLock free =>
    split at h
    · rename_i t fct user lockp hm
      split_ifs at h with hbusy
      · have hcb : s.callback t = none := by
          simp only [Orderly, hm] at ho
          exact ho hbusy.1 hbusy.2
        obtain ⟨hinv, hq⟩ := requeue_keeps hi hm hcb h
        exact ⟨hinv, fun a ha _ => hq a ha⟩
      · cases h
        refine ⟨hi.withManager (m := .running t) (fun _ => rfl) _ _, fun a ha _ => ⟨ha.callback, rfl, ?_⟩⟩
        have haw := ha.awaits
        rw [hm] at haw
        exact haw
    · cases h
  | finish =>
    split at h
    · cases h
      exact ⟨hi.withManager (m := .looping) (fun _ => rfl) _ _, fun a ha _ => ⟨ha.callback, rfl, rfl⟩⟩
    · cases h

theorem init_inv (size : Nat) (timer : Nat → Timer) : Inv size (init size timer) := by
  have hmem : ∀ t n, (init size timer).mem t = some n → t < size ∧ n.tcbf = none := by
    intro t n hn
    simp only [init] at hn
    split_ifs at hn with ht
    cases hn
    exact ⟨ht, rfl⟩
  refine ⟨⟨[], [], rfl, rfl, nodup_nil, nofun, fun t n hn => ?_⟩, fun t n hn => (hmem t n hn).1, nofun⟩
  exact iff_of_false (fun h => h (hmem t n hn).2) not_mem_nil

theorem run_inv (h : Run (step size) Orderly (init size timer) es s) : Inv size s :=
  h.invariant (fun _ s => Inv size s) (init_inv size timer) fun _ _ _ _ hi ho hs => (step_keeps hi ho hs).1

def Event.stops (t : Nat) : Event → Bool
  | .stop t' | .restop _ t' => t' = t
  | _ => false

theorem stops_quiet (hi : Inv size s) (he : e.stops t = true) (ho : Orderly s e)
    (hr : s.manager.runs t = false) (h : s.step size e = some s') : Quiet t s' := by
  cases e with
  | stop t' =>
    obtain rfl : t' = t := of_decide_eq_true he
    simp only [step] at h
    split_ifs at h
    obtain ⟨-, hcb, hm, -⟩ := tmrStop_keeps hi h
    exact ⟨hcb, hm ▸ ho, hm ▸ hr⟩
  | restop k t' =>
    obtain rfl : t' = t := of_decide_eq_true he
    simp only [step] at h
    split at h
    · split_ifs at h
      obtain ⟨s1, hs1, rfl⟩ := map_eq_some_iff.1 h
      obtain ⟨-, hcb, hm, -⟩ := tmrStop_keeps hi hs1
      exact ⟨hcb, hm ▸ ho, hm ▸ hr⟩
    · cases h
  | _ => cases he

/-- **A stopped timer stays silent**: in an orderly run the lists are consistent, and a timer stopped while its callback
was not running does not call back before it is put in a list again. -/
theorem stopped_timer_silent {timer : Nat → Timer} {es : List Event}
    (hrun : Run (State.step size) Orderly (init size timer) es s) :
    Consistent s ∧ ∀ (t : Nat) (e : Event) (s1 : State), e.stops t = true → Orderly s e → s.manager.runs t = false →
      s.step size e = some s1 → ∀ (later : List Event) (s2 : State), Run (State.step size) Orderly s1 later s2 →
        (∀ k, Event.insert k t ∉ later) → s2.manager.runs t = false := by
  have hi := run_inv hrun
  refine ⟨hi.consistent, fun t e s1 he ho hr hst later s2 hlater hins => ?_⟩
  have hq : Inv size s2 ∧ Quiet t s2 := by
    revert hins
    apply hlater.invariant (fun later s2 => (∀ k, Event.insert k t ∉ later) → Inv size s2 ∧ Quiet t s2)
    · exact fun _ => ⟨(step_keeps hi ho hst).1, stops_quiet hi he ho hr hst⟩
    intro later s2 e' s3 ih ho' hs' hins
    obtain ⟨hi2, hq2⟩ := ih fun k hk => hins k (mem_append_left _ hk)
    obtain ⟨hi3, hq3⟩ := step_keeps hi2 ho' hs'
    refine ⟨hi3, hq3 t hq2 fun k hk => hins k (mem_append_right _ ?_)⟩
    rw [hk]
    exact mem_singleton.2 rfl
  exact hq.2.runs

def oneTimer : State := init 1 fun _ => ⟨none, 0, 0, none, none⟩

theorem stopped_before_timeout : ∃ s s1 s2,
    Run (State.step 1) Orderly oneTimer [.start 0 0 5 0 7 none 0, .insert 0 0] s ∧ s.callback 0 = some 7 ∧
    s.step 1 (.stop 0) = some s1 ∧ Run (State.step 1) Orderly s1 [.enter, .iterate 9] s2 ∧
    s2.manager.runs 0 = false := by
  obtain ⟨s, hrun, hcb, s1, hst, hman, s2, hlater⟩ :
      ∃ s, Run (State.step 1) Orderly oneTimer [.start 0 0 5 0 7 none 0, .insert 0 0] s ∧ s.callback 0 = some 7 ∧
        ∃ s1, s.step 1 (.stop 0) = some s1 ∧ s.manager = .outside ∧
          ∃ s2, Run (State.step 1) Orderly s1 [.enter, .iterate 9] s2 :=
    ⟨_, .snoc (.snoc .nil trivial rfl) (by rfl) rfl, rfl, _, rfl, rfl, _, .snoc (.snoc .nil trivial rfl) trivial rfl⟩
  have hout : s.manager.awaits 0 = false ∧ s.manager.runs 0 = false := by
    rw [hman]
    exact ⟨rfl, rfl⟩
  exact ⟨s, s1, s2, hrun, hcb, hst, hlater,
    (stopped_timer_silent hrun).2 0 (.stop 0) s1 rfl hout.1 hout.2 hst _ s2 hlater (by simp)⟩

/-- With its lock busy, a timer that was stopped right after it was popped is queued and called; one that was started
then is in both lists. -/
theorem popped_timer_escapes :
    (∃ es s s1 later s2, Run (State.step 1) (fun _ _ => True) oneTimer es s ∧ s.manager.runs 0 = false ∧
      s.step 1 (.stop 0) = some s1 ∧ Run (State.step 1) (fun _ _ => True) s1 later s2 ∧
      (∀ k, Event.insert k 0 ∉ later) ∧ s2.manager.runs 0 = true) ∧
    ∃ es s, Run (State.step 1) (fun _ _ => True) oneTimer es s ∧ ¬ Consistent s := by
  constructor
  · refine ⟨[.start 0 0 5 0 7 (some 1) 0, .insert 0 0, .enter, .iterate 5], _, _,
      [.tryLock false, .iterate 5, .enter, .iterate 6, .tryLock true], _,
      .snoc (.snoc (.snoc (.snoc .nil trivial rfl) trivial rfl) trivial rfl) trivial rfl, rfl, rfl,
      .snoc (.snoc (.snoc (.snoc (.snoc .nil trivial rfl) trivial rfl) trivial rfl) trivial rfl)
        trivial rfl, by simp, rfl⟩
  · refine ⟨[.start 0 0 5 0 7 (some 1) 0, .insert 0 0, .enter, .iterate 5, .start 0 0 5 0 7 (some 1) 5, .insert 0 0,
      .tryLock false], _, .snoc (.snoc (.snoc (.snoc (.snoc (.snoc (.snoc .nil trivial rfl) trivial rfl) trivial rfl)
        trivial rfl) trivial rfl) trivial rfl) trivial rfl, ?_⟩
    rintro ⟨l1, l2, h⟩
    have h1 : 0 ∈ l1 := mem_of_mem_head? h.list.head.symm
    have h2 : 0 ∈ l2 := mem_of_mem_head? h.pending.head.symm
    exact (nodup_append.1 h.nodup).2.2 0 h1 0 h2 rfl

end Qeo.Timers
