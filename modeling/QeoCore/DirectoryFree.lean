import QeoCore.DirectoryMap
import Mathlib.Data.List.Perm.Subperm
/-!
# DirectoryFree — the lists hold the live instances, and freeing one keeps it so

`WF`: the live instances are a map from keys and from handles, and the list or the two skiplists hold each of them once.
-/
namespace Qeo.Directory

open Function Linked

open List hiding head tail
open SkipList (Node)

def Live (d : Dir) (a : Nat) : Prop := ∃ e, d a = some e

def Holds (mem : Mem) (nodes ninstances : Nat) : Rep → Prop
  | .list head tail => ∃ l, Chain links mem head tail l ∧ (∀ a, a ∈ l ↔ Live (view mem) a) ∧ ninstances = l.length
  | .skip hashes handles =>
    Indexed (view mem) (Live (view mem)) nodes hashes handles ∧ Unlinked mem (Live (view mem)) ∧
      ninstances = handles.nodes.length

structure WF (cfg : Config) (s : State) : Prop where
  map : IsMap cfg (view s.mem) s.fresh
  holds : Holds s.mem s.nodes s.ninstances s.rep

theorem wf_init (cfg : Config) : WF cfg State.init where
  map := isMap_empty
  holds := ⟨[], .nil, (fun a => ⟨nofun, fun ⟨e, h⟩ => by cases h⟩), rfl⟩

structure Steady (s s' : State) : Prop where
  fresh : s'.fresh = s.fresh
  lastHandle : s'.lastHandle = s.lastHandle
  recycle : s'.recycle = s.recycle

theorem Steady.refl : Steady s s := ⟨rfl, rfl, rfl⟩

theorem Steady.trans (h : Steady s1 s2) (h' : Steady s2 s3) : Steady s1 s3 :=
  ⟨h'.fresh.trans h.fresh, h'.lastHandle.trans h.lastHandle, h'.recycle.trans h.recycle⟩

def Dir.free (d : Dir) (x : Handle) : Dir := fun a => (d a).filter fun e => e.handle != x

section
variable {cfg : Config} {s : State}

theorem live_of_mem (h : mem a = some ip) : Live (view mem) a := ⟨_, view_some h⟩

theorem length_le_fresh (h : IsMap cfg d fresh) {l : List Nat} (hl : ∀ a ∈ l, Live d a)
    (hn : l.Nodup) : l.length ≤ fresh := by
  have hsub : l ⊆ List.range fresh := fun a ha =>
    have ⟨e, he⟩ := hl a ha
    mem_range.2 (h.bound a e he)
  have := (subperm_of_subset hn hsub).length_le
  rwa [length_range] at this

theorem free_eq_update (h : IsMap cfg (view s.mem) s.fresh) (he : view s.mem a = some e) (hx : e.handle = x) :
    (view s.mem).free x = Function.update (view s.mem) a none := by
  funext b
  by_cases hb : b = a
  · subst hb
    rw [update_self, Dir.free, he, Option.filter_some, hx, bne_self_eq_false, if_neg Bool.false_ne_true]
  rw [update_of_ne hb, Dir.free]
  cases hf : view s.mem b with
  | none => rfl
  | some f =>
    have hne : f.handle ≠ x := fun heq => hb (h.handles b a f e hf he (heq.trans hx.symm))
    rw [Option.filter_some, if_pos (bne_iff_ne.2 hne)]

theorem free_eq_self {d : Dir} (h : ∀ a e, d a = some e → e.handle ≠ x) : d.free x = d := by
  funext b
  rw [Dir.free]
  cases hf : d b with
  | none => rfl
  | some f => rw [Option.filter_some, if_pos (bne_iff_ne.2 (h b f hf))]

theorem live_update_none {d : Dir} : Live (Function.update d a none) b ↔ Live d b ∧ b ≠ a := by
  constructor
  · rintro ⟨e, he⟩
    obtain ⟨hb, he⟩ := of_update_none he
    exact ⟨⟨e, he⟩, hb⟩
  · rintro ⟨⟨e, he⟩, hb⟩
    exact ⟨e, by rw [update_of_ne hb, he]⟩

theorem WF.convertToShort (hW : WF cfg s) (hr : s.rep = .skip hashes handles) :
    ∃ s', s.convertToShort handles = some s' ∧ WF cfg s' ∧ view s'.mem = view s.mem ∧
      Steady s s' ∧ s'.ninstances = s.ninstances := by
  have hh := hW.holds
  rw [hr] at hh
  obtain ⟨hI, hU, hlen⟩ := hh
  have hnodup : (handles.nodes.map Node.data).Nodup := by
    rw [List.Nodup, pairwise_map]
    exact hI.handleOrder.imp fun {m n} hlt heq => by
      rw [heq] at hlt
      exact lt_irrefl _ hlt
  have hmem : ∀ a, a ∈ handles.nodes.map Node.data ↔ Live (view s.mem) a := by
    intro a
    rw [mem_map]
    exact hI.handleMem a
  have hrest : ∀ a ∈ handles.nodes.map Node.data,
      a ∉ ([] : List Nat) ∧ ∃ ip, s.mem a = some ip ∧ ip.next = none := by
    intro a ha
    obtain ⟨e, he⟩ := (hmem a).1 ha
    obtain ⟨ip, hip, _⟩ := exists_of_view he
    exact ⟨not_mem_nil, ip, hip, hU a ip (live_of_mem hip) hip⟩
  obtain ⟨mem', head, tail, hfold, hC, hrel⟩ := cvt_all (Chain.nil : Chain links s.mem none none []) hrest hnodup
  have hview : view mem' = view s.mem := view_relinked hrel
  refine ⟨{ s with mem := mem', rep := .list head tail }, ?_, ⟨?_, ?_⟩, hview, ⟨rfl, rfl, rfl⟩, rfl⟩
  · rw [State.convertToShort, hfold, Option.map_some]
  · rw [hview]
    exact hW.map
  refine ⟨_, hC, ?_, ?_⟩
  · rw [hview]
    exact hmem
  · rw [hlen, nil_append, length_map]

theorem release_ok (s : State) (a : Nat) (ip : Inst) (hmap : IsMap cfg (view s.mem) s.fresh)
    (hh : Holds (Function.update s.mem a none) s.nodes (s.ninstances - 1) s.rep) :
    ∃ s', s.release a ip = some s' ∧ WF cfg s' ∧ view s'.mem = Function.update (view s.mem) a none ∧
      Steady s s' ∧ s'.ninstances = s.ninstances - 1 ∧
      ((∃ head tail, s.rep = .list head tail) → s'.rep = s.rep) := by
  have hview : view (Function.update s.mem a none) = Function.update (view s.mem) a none := view_update _ _ _
  have hW : WF cfg (s.freed a ip) := by
    refine ⟨?_, hh⟩
    show IsMap cfg (view (Function.update s.mem a none)) s.fresh
    rw [hview]
    exact hmap.erase a
  have hsteady : Steady s (s.freed a ip) := ⟨rfl, rfl, rfl⟩
  cases hr : s.rep with
  | list head tail =>
    refine ⟨s.freed a ip, ?_, hW, hview, hsteady, rfl, fun _ => hr⟩
    simp only [State.release, hr]
  | skip hashes handles =>
    by_cases hc : s.ninstances - 1 ≤ minInstLlist ∧ s.slWalk = 0
    · obtain ⟨s', hs', hW', hview', hsteady', hn⟩ := hW.convertToShort hr
      refine ⟨s', ?_, hW', hview'.trans hview, hsteady.trans hsteady', hn, ?_⟩
      · simp only [State.release, hr, if_pos hc]
        exact hs'
      · rintro ⟨head, tail, ht⟩
        cases ht
    · refine ⟨s.freed a ip, ?_, hW, hview, hsteady, rfl, fun _ => hr⟩
      simp only [State.release, hr, if_neg hc]

/-! ## Freeing -/

theorem WF.search_list (hW : WF cfg s) (hC : Chain links s.mem head tail l)
    (hl : ∀ a, a ∈ l ↔ Live (view s.mem) a) (test : Inst → Bool)
    (hone : ∀ a b ip jp, s.mem a = some ip → s.mem b = some jp → test ip = true → test jp = true → a = b) :
    (∃ a ip l1 l2, l = l1 ++ a :: l2 ∧ s.mem a = some ip ∧ test ip = true ∧
      search links s.mem test s.fresh none head = some (some (l1.getLast?, a))) ∨
    ((∀ a ip, s.mem a = some ip → test ip = false) ∧
      search links s.mem test s.fresh none head = some none) := by
  have hlen : l.length ≤ s.fresh := length_le_fresh hW.map (fun a ha => (hl a).1 ha) hC.nodup
  by_cases hex : ∃ a ip, s.mem a = some ip ∧ test ip = true
  · obtain ⟨a, ip, hip, ht⟩ := hex
    obtain ⟨l1, l2, rfl⟩ := append_of_mem ((hl a).2 (live_of_mem hip))
    have hfirst : ∀ b ∈ l1, ∀ jp, s.mem b = some jp → test jp = false := by
      intro b hb jp hjp
      by_contra hne
      have hba := hone b a jp ip hjp hip (Bool.not_eq_false _ ▸ hne) ht
      exact (nodup_append.1 hC.nodup).2.2 b hb a mem_cons_self hba
    have hfuel : l1.length < s.fresh := by
      rw [length_append, length_cons] at hlen
      omega
    have hsearch : search links s.mem test s.fresh none head = some (some (l1.getLast?.or none, a)) :=
      search_present hC.seg hfuel hfirst hip ht
    rw [Option.or_none] at hsearch
    exact .inl ⟨a, ip, l1, l2, rfl, hip, ht, hsearch⟩
  · have hnone : ∀ a ip, s.mem a = some ip → test ip = false := by
      intro a ip hip
      by_contra hne
      exact hex ⟨a, ip, hip, Bool.not_eq_false _ ▸ hne⟩
    exact .inr ⟨hnone, search_absent hC.seg hlen (fun a _ => hnone a)⟩

theorem IsMap.one_handle (h : IsMap cfg (view s.mem) s.fresh) (x : Handle) (a b : Nat) (ip jp : Inst)
    (ha : s.mem a = some ip) (hb : s.mem b = some jp) (hx : (ip.handle == x) = true) (hy : (jp.handle == x) = true) :
    a = b :=
  h.handles a b ip.entry jp.entry (view_some ha) (view_some hb) ((beq_iff_eq.1 hx).trans (beq_iff_eq.1 hy).symm)

def Frees (cfg : Config) (s : State) (x : Handle) (s' : State) : Prop :=
  WF cfg s' ∧ view s'.mem = (view s.mem).free x ∧ Steady s s' ∧ s'.ninstances ≤ s.ninstances ∧
    ((∃ head tail, s.rep = .list head tail) → ∃ head tail, s'.rep = .list head tail)

theorem WF.frees_nothing (hW : WF cfg s) (hx : ∀ a e, view s.mem a = some e → e.handle ≠ x) :
    Frees cfg s x s := ⟨hW, (free_eq_self hx).symm, .refl, Nat.le_refl _, fun h => h⟩

theorem WF.instFree_list (hW : WF cfg s) (hr : s.rep = .list head tail) (x : Handle) :
    ∃ s', s.instFree cfg x = some s' ∧ Frees cfg s x s' := by
  have hh := hW.holds
  rw [hr] at hh
  obtain ⟨l, hC, hl, hn⟩ := hh
  rcases hW.search_list hC hl (fun ip => ip.handle == x) (hW.map.one_handle x) with
    ⟨a, ip, l1, l2, rfl, hip, hx, hsearch⟩ | ⟨hnone, hsearch⟩
  · have hx := beq_iff_eq.1 hx
    obtain ⟨mem', head', tail', hun, hC', hframe, hrel⟩ := hC.unlink hip
    have hview : view mem' = view s.mem := view_relinked hrel
    have hnotin : a ∉ l1 ++ l2 := by
      intro hm
      obtain ⟨_, h2, h₁₂⟩ := nodup_append.1 hC.nodup
      rcases mem_append.1 hm with hm | hm
      · exact h₁₂ a hm a mem_cons_self rfl
      · exact (nodup_cons.1 h2).1 hm
    have hh' : Holds (Function.update mem' a none) s.nodes (s.ninstances - 1) (.list head' tail') := by
      refine ⟨l1 ++ l2, hC'.update hnotin none, fun b => ?_, ?_⟩
      · rw [view_update, Option.map_none, hview, live_update_none, ← hl b]
        simp only [mem_append, mem_cons]
        constructor
        · intro hb
          refine ⟨by tauto, ?_⟩
          rintro rfl
          exact hnotin (mem_append.2 hb)
        · tauto
      · rw [hn, length_append, length_append, length_cons]
        omega
    obtain ⟨s', hs', hW', hview', hsteady, hcount, hrep⟩ :=
      release_ok { s with mem := mem', rep := .list head' tail' } a ip (hview ▸ hW.map) hh'
    refine ⟨s', ?_, hW', ?_, ⟨hsteady.fresh, hsteady.lastHandle, hsteady.recycle⟩, ?_, fun _ => ?_⟩
    · simp only [State.instFree, hr, hsearch, hip]
      have hun' : unlink links s.mem head tail l1.getLast? ip.next = some (mem', head', tail') := hun
      simp only [hun']
      exact hs'
    · rw [hview', free_eq_update hW.map (view_some hip) hx]
      exact congrArg (fun d => Function.update d a none) hview
    · rw [hcount]
      exact Nat.sub_le _ _
    · exact ⟨head', tail', hrep ⟨head', tail', rfl⟩⟩
  · refine ⟨s, ?_, hW.frees_nothing fun a e he heq => ?_⟩
    · simp only [State.instFree, hr, hsearch]
    obtain ⟨ip, hip, rfl⟩ := exists_of_view he
    have := hnone a ip hip
    rw [show ip.handle = x from heq, beq_self_eq_true] at this
    cases this

theorem WF.instFree_skip (hW : WF cfg s) (hr : s.rep = .skip hashes handles)
    (x : Handle) : ∃ s', s.instFree cfg x = some s' ∧ Frees cfg s x s' := by
  have hh := hW.holds
  rw [hr] at hh
  obtain ⟨hI, hU, hlen⟩ := hh
  rcases hI.search_handle x with ⟨n, e, hn, hP, he, rfl, hsearch⟩ | ⟨hnone, hsearch⟩
  · obtain ⟨ip, hip, rfl⟩ := exists_of_view he
    obtain ⟨f, hf, hsmall⟩ := hI.live n.data hP
    rw [he] at hf
    cases hf
    obtain ⟨pre', post', hl'⟩ := append_of_mem hn
    obtain ⟨k', hdel'⟩ := SkipList.delete_present (hI.compares_handle hsmall) hI.handleOrder hl' (handleOf_some he)
    obtain ⟨m, hm, hmd, hsearch'⟩ := hI.search_hash_present hP he
    obtain ⟨pre, post, hl⟩ := append_of_mem hm
    have hmh : hashOf (view s.mem) m.data = ip.hash := by
      rw [hmd, hashOf_some he]
      rfl
    obtain ⟨k, hdel⟩ := SkipList.delete_present (hI.compares_hash ip.hash) hI.hashOrder hl hmh
    have hnext : ip.next = none := hU n.data ip hP hip
    have hP' : (fun b => Live (view s.mem) b ∧ b ≠ n.data) = Live (view (Function.update s.mem n.data none)) := by
      funext b
      rw [view_update, Option.map_none, live_update_none]
    have hI' := hI.leave k k' hl hmd hl' rfl
    have hI'' : Indexed (view (Function.update s.mem n.data none)) (Live (view (Function.update s.mem n.data none)))
        s.nodes ⟨pre ++ post, k⟩ ⟨pre' ++ post', k'⟩ := by
      rw [← hP']
      refine hI'.congr fun b hb => ?_
      rw [view_update, update_of_ne hb.2]
    have hU' : Unlinked (Function.update s.mem n.data none) (Live (view (Function.update s.mem n.data none))) := by
      intro b jp hb hjp
      rw [← hP'] at hb
      rw [update_of_ne hb.2] at hjp
      exact hU b jp hb.1 hjp
    have hcount' : s.ninstances - 1 = (pre' ++ post').length := by
      rw [hlen, hl']
      simp only [length_append, length_cons]
      omega
    obtain ⟨s', hs', hW', hview', hsteady, hcount, _⟩ :=
      release_ok { s with rep := .skip ⟨pre ++ post, k⟩ ⟨pre' ++ post', k'⟩ } n.data ip hW.map ⟨hI'', hU', hcount'⟩
    refine ⟨s', ?_, hW', ?_, ⟨hsteady.fresh, hsteady.lastHandle, hsteady.recycle⟩, ?_, ?_⟩
    · have hcond : (cfg.short || ip.next == none) = true := by
        rw [hnext]
        exact Bool.or_true _
      have hsearch'' : SkipList.search hashes (hashCmpFct s.mem ip.hash) = some (some m) := hsearch'
      have hsh : SkipList.search handles (handleCmpFct s.mem ip.handle) = some (some n) := hsearch
      have hdh : SkipList.delete handles (handleCmpFct s.mem ip.handle) = some ⟨pre' ++ post', k'⟩ := hdel'
      show s.instFree cfg ip.handle = some s'
      simp only [State.instFree, hr, hsh, hdh, hip, State.freeHashed, hsearch'', hcond, if_true, hdel]
      exact hs'
    · rw [hview', free_eq_update hW.map he rfl]
    · rw [hcount]
      exact Nat.sub_le _ _
    · rintro ⟨head, tail, ht⟩
      rw [hr] at ht
      cases ht
  · refine ⟨s, ?_, hW.frees_nothing fun a e he => hnone a e ⟨e, he⟩ he⟩
    simp only [State.instFree, hr, hsearch]

/-- **`hc_inst_free` frees the instance of the handle and no other, in either representation.** -/
theorem WF.instFree (hW : WF cfg s) (x : Handle) : ∃ s', s.instFree cfg x = some s' ∧ Frees cfg s x s' := by
  cases hr : s.rep with
  | list head tail => exact hW.instFree_list hr x
  | skip hashes handles => exact hW.instFree_skip hr x

end

end Qeo.Directory
