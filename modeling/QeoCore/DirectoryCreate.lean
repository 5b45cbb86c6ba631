import QeoCore.DirectoryFree
/-!
# DirectoryCreate — handles, recovery, and new instances

A new instance gets a handle that no live instance has (`WF.allotHandle`).  With such a handle and a new key it can be
created, in the list (`WF.create_list`) and in the skiplists (`WF.create_skip`).
-/
namespace Qeo.Directory

open Function Option

def Unused (d : Dir) (x : Handle) : Prop := ∀ a e, d a = some e → e.handle ≠ x

section
variable {cfg : Config} {s : State}

/-! ## Handles -/

theorem WF.getInstanceHandle (hW : WF cfg s) (x : Handle) :
    (∃ a e, view s.mem a = some e ∧ e.handle = x ∧ s.getInstanceHandle x = some (some a)) ∨
    (Unused (view s.mem) x ∧ s.getInstanceHandle x = some none) := by
  have hh := hW.holds
  cases hr : s.rep with
  | list head tail =>
    rw [hr] at hh
    obtain ⟨l, hC, hl, _⟩ := hh
    rcases hW.search_list hC hl (fun ip => ip.handle == x) (hW.map.one_handle x) with
      ⟨a, ip, l1, l2, _, hip, hx, hsearch⟩ | ⟨hnone, hsearch⟩
    · refine .inl ⟨a, ip.entry, view_some hip, beq_iff_eq.1 hx, ?_⟩
      simp [State.getInstanceHandle, hr, hsearch]
    refine .inr ⟨fun a e he heq => ?_, ?_⟩
    · obtain ⟨ip, hip, rfl⟩ := exists_of_view he
      have := hnone a ip hip
      rw [show ip.handle = x from heq, beq_self_eq_true] at this
      cases this
    · simp [State.getInstanceHandle, hr, hsearch]
  | skip hashes handles =>
    rw [hr] at hh
    obtain ⟨hI, _, _⟩ := hh
    rcases hI.search_handle x with ⟨n, e, _, _, he, hx, hsearch⟩ | ⟨hnone, hsearch⟩
    · refine .inl ⟨n.data, e, he, hx, ?_⟩
      simp [State.getInstanceHandle, hr, hsearch]
    · refine .inr ⟨fun a e he => hnone a e ⟨e, he⟩ he, ?_⟩
      simp [State.getInstanceHandle, hr, hsearch]

def Wraps (last : Handle) (recycle : Bool) : Prop := recycle = true ∨ maxInstHandle ≤ last

theorem bump_wraps (h : Wraps last recycle) : (bump last recycle).2 = true := by
  unfold bump
  by_cases hm : maxInstHandle ≤ last
  · rw [if_pos hm]
  · rw [if_neg hm]
    exact h.resolve_right hm

theorem toNat_bump (last : Handle) (recycle : Bool) :
    (bump last recycle).1.toNat = last.toNat % 4294967295 + 1 := by
  have hlt : last.toNat < 4294967296 := last.toNat_lt
  unfold bump
  by_cases hm : maxInstHandle ≤ last
  · have hge : 4294967295 ≤ last.toNat := UInt32.le_iff_toNat_le.1 hm
    rw [if_pos hm]
    show 1 = last.toNat % 4294967295 + 1
    omega
  · have hle : ¬ 4294967295 ≤ last.toNat := fun h => hm (UInt32.le_iff_toNat_le.2 h)
    rw [if_neg hm]
    show (last.toNat + 1) % 4294967296 = last.toNat % 4294967295 + 1
    omega

theorem WF.used_of_nextHandle (hW : WF cfg s) : ∀ {fuel : Nat} {last : Handle} {recycle : Bool}, Wraps last recycle →
    s.nextHandle fuel last recycle = none →
    ∀ i < fuel, ∃ a, Live (view s.mem) a ∧ handleOf (view s.mem) a = (last.toNat + i) % 4294967295 + 1
  | 0, _, _, _, _, i, hi => absurd hi (Nat.not_lt_zero i)
  | fuel + 1, last, recycle, hw, h, i, hi => by
    have hrec := bump_wraps hw
    have hnat := toNat_bump last recycle
    simp only [State.nextHandle, hrec, if_true] at h
    rcases hW.getInstanceHandle (bump last recycle).1 with ⟨a, e, he, hx, hget⟩ | ⟨_, hget⟩
    · rw [hget] at h
      cases i with
      | zero =>
        refine ⟨a, ⟨e, he⟩, ?_⟩
        rw [handleOf_some he, hx, hnat]
        rfl
      | succ i =>
        obtain ⟨b, hb, hbx⟩ := hW.used_of_nextHandle (.inl rfl) h i (Nat.lt_of_succ_lt_succ hi)
        refine ⟨b, hb, hbx.trans ?_⟩
        omega
    · rw [hget] at h
      cases h

theorem WF.unused_of_nextHandle (hW : WF cfg s) : ∀ {fuel : Nat} {last : Handle} {recycle : Bool}
    {r : Handle × Bool}, Wraps last recycle → s.nextHandle fuel last recycle = some r → Unused (view s.mem) r.1
  | 0, _, _, _, _, h => by cases h
  | fuel + 1, last, recycle, r, hw, h => by
    simp only [State.nextHandle, bump_wraps hw, if_true] at h
    rcases hW.getInstanceHandle (bump last recycle).1 with ⟨a, e, _, _, hget⟩ | ⟨hun, hget⟩
    · rw [hget] at h
      exact hW.unused_of_nextHandle (.inl rfl) h
    · rw [hget] at h
      cases h
      exact hun

/-- Few instances leave a handle: the rounds of the loop would meet more live instances than there are. -/
theorem WF.nextHandle_ends (hW : WF cfg s) {l : List Nat} (hl : ∀ a, a ∈ l ↔ Live (view s.mem) a)
    (hfew : l.length < 4294967295) (hw : Wraps last recycle) :
    ∃ r, s.nextHandle (2 ^ 32) last recycle = some r := by
  rw [← isSome_iff_exists, isSome_iff_ne_none]
  intro hnone
  have hused := hW.used_of_nextHandle hw hnone
  choose! g hlive hnat using hused
  have hlt : ∀ i ≤ l.length, i < 2 ^ 32 := fun i hi => by omega
  have hnodup : ((List.range (l.length + 1)).map g).Nodup := by
    rw [List.Nodup, List.pairwise_map]
    refine List.Pairwise.imp_of_mem (fun {i j} hi hj hij heq => ?_) List.pairwise_lt_range
    have hi := Nat.le_of_lt_succ (List.mem_range.1 hi)
    have hj := Nat.le_of_lt_succ (List.mem_range.1 hj)
    have h1 := hnat i (hlt i hi)
    have h2 := hnat j (hlt j hj)
    rw [heq] at h1
    omega
  have hsub : (List.range (l.length + 1)).map g ⊆ l := by
    intro a ha
    obtain ⟨i, hi, rfl⟩ := List.mem_map.1 ha
    have hi := Nat.le_of_lt_succ (List.mem_range.1 hi)
    exact (hl _).2 (hlive i (hlt i hi))
  have hle := (List.subperm_of_subset hnodup hsub).length_le
  rw [List.length_map, List.length_range] at hle
  omega

theorem nextHandle_plain (h : last < maxInstHandle) (fuel : Nat) :
    s.nextHandle (fuel + 1) last false = some (last + 1, false) := by
  have hb : bump last false = (last + 1, false) := if_neg (UInt32.not_le.2 h)
  simp [State.nextHandle, hb]

structure Allots (s : State) (add : Add) (h : Handle) : Prop where
  set : ∀ x, add = .setH x → h = x
  next : add = .newH → s.recycle = false → s.lastHandle < maxInstHandle → h = s.lastHandle + 1

structure Offers (s : State) (d : Dir) (add : Add) : Prop where
  set : ∀ x, add = .setH x → Unused d x
  next : add = .newH → s.recycle = false → s.lastHandle < maxInstHandle → Unused d (s.lastHandle + 1)

theorem WF.allotHandle (hW : WF cfg s) {l : List Nat} (hl : ∀ a, a ∈ l ↔ Live (view s.mem) a)
    (hfew : l.length < 4294967295) (hadd : add ≠ .lookup) (ho : Offers s (view s.mem) add) :
    ∃ h last recycle, s.allotHandle add = some (h, last, recycle) ∧ Unused (view s.mem) h ∧ Allots s add h := by
  cases add with
  | lookup => exact absurd rfl hadd
  | setH x =>
    exact ⟨x, s.lastHandle, s.recycle, rfl, ho.set x rfl, (fun y hy => Add.setH.inj hy), nofun⟩
  | newH =>
    by_cases hw : Wraps s.lastHandle s.recycle
    · obtain ⟨r, hr⟩ := hW.nextHandle_ends hl hfew hw
      refine ⟨r.1, r.1, r.2, ?_, hW.unused_of_nextHandle hw hr, nofun, fun _ hrec hlt => ?_⟩
      · simp only [State.allotHandle, hr, map_some]
      rcases hw with hw | hw
      · rw [hrec] at hw
        cases hw
      · exact absurd hlt (UInt32.not_lt.2 hw)
    · have hrec : s.recycle = false := Bool.eq_false_iff.2 fun h => hw (.inl h)
      have hlt : s.lastHandle < maxInstHandle := UInt32.not_le.1 fun h => hw (.inr h)
      have hnext : s.nextHandle (2 ^ 32) s.lastHandle false = some (s.lastHandle + 1, false) :=
        nextHandle_plain hlt 4294967295
      refine ⟨s.lastHandle + 1, s.lastHandle + 1, false, ?_, ho.next rfl hrec hlt, nofun,
        fun _ _ _ => rfl⟩
      simp only [State.allotHandle, hrec, hnext, map_some]

/-! ## New instances -/

theorem view_allocate (k : Key cfg) (h last : Handle) (recycle : Bool) :
    view (s.allocate cfg k h last recycle).mem =
      Function.update (view s.mem) s.fresh (some (newEntry cfg k h)) := view_update _ _ _

theorem live_update_some {d : Dir} : Live (Function.update d a (some e)) b ↔ Live d b ∨ b = a := by
  constructor
  · rintro ⟨f, hf⟩
    rcases of_update_some hf with ⟨rfl, _⟩ | ⟨_, hf⟩
    · exact .inr rfl
    · exact .inl ⟨f, hf⟩
  · intro h
    by_cases hb : b = a
    · subst hb
      exact ⟨e, update_self _ _ _⟩
    · obtain ⟨f, hf⟩ := h.resolve_right hb
      exact ⟨f, by rw [update_of_ne hb, hf]⟩

theorem WF.enter_list (hW : WF cfg s) (hr : s.rep = .list head tail)
    (hk : Absent cfg (view s.mem) k) (hx : Unused (view s.mem) h) (last : Handle) (recycle : Bool) (node : Option Nat) :
    ∃ t, (s.allocate cfg k h last recycle).enter cfg node h s.fresh = some t ∧ WF cfg t.counted ∧
      view t.mem = Function.update (view s.mem) s.fresh (some (newEntry cfg k h)) := by
  have hh := hW.holds
  rw [hr] at hh
  obtain ⟨l, hC, hl, hn⟩ := hh
  have hnot : s.fresh ∉ l := by
    intro hm
    obtain ⟨e, he⟩ := (hl s.fresh).1 hm
    exact absurd (hW.map.bound _ _ he) (Nat.lt_irrefl _)
  have hC' := hC.update hnot (some (newInst cfg k h))
  obtain ⟨mem', head', hpush, hC'', _, hrel⟩ := hC'.pushBack hnot (update_self _ _ _) rfl
  have hview : view mem' = Function.update (view s.mem) s.fresh (some (newEntry cfg k h)) :=
    (view_relinked hrel).trans (view_allocate k h last recycle)
  refine ⟨{ s.allocate cfg k h last recycle with mem := mem', rep := .list head' (some s.fresh) }, ?_, ⟨?_, ?_⟩, hview⟩
  · have hrep : (s.allocate cfg k h last recycle).rep = .list head tail := hr
    simp only [State.enter, hrep]
    have hpush' : Linked.pushBack links (s.allocate cfg k h last recycle).mem head tail s.fresh =
        some (mem', head', some s.fresh) := hpush
    rw [hpush', map_some]
  · show IsMap cfg (view mem') (s.fresh + 1)
    rw [hview]
    exact hW.map.enter hk hx
  · refine ⟨l ++ [s.fresh], hC'', fun b => ?_, ?_⟩
    · show b ∈ l ++ [s.fresh] ↔ Live (view mem') b
      rw [hview, live_update_some, List.mem_append, List.mem_singleton, hl b]
    · show s.ninstances + 1 = _
      rw [hn, List.length_append, List.length_singleton]

def Dir.without (d : Dir) : Option Handle → Dir
  | none => d
  | some x => d.free x

theorem free_some {d : Dir} (h : d.free x a = some e) : d a = some e := by
  rw [Dir.free, filter_eq_some_iff] at h
  exact h.1

theorem without_some {d : Dir} (h : d.without x a = some e) : d a = some e := by
  cases x with
  | none => exact h
  | some x => exact free_some h

def goneHandle (r : Option (Nat × Inst)) : Option Handle := r.map fun p => p.2.handle

theorem WF.recovered_list (hW : WF cfg s) (hr : s.rep = .list head tail) (r : Option (Nat × Inst)) :
    ∃ t, s.recovered cfg r = some t ∧ WF cfg t ∧ view t.mem = (view s.mem).without (goneHandle r) ∧ Steady s t ∧
      t.ninstances ≤ s.ninstances ∧ ∃ head tail, t.rep = .list head tail := by
  cases r with
  | none => exact ⟨s, rfl, hW, rfl, .refl, Nat.le_refl _, head, tail, hr⟩
  | some r =>
    obtain ⟨t, ht, hWt, hview, hsteady, hle, hrep⟩ := hW.instFree_list hr r.2.handle
    exact ⟨t, ht, hWt, hview, hsteady, hle, hrep ⟨head, tail, hr⟩⟩

theorem WF.create_list (hW : WF cfg s) (hr : s.rep = .list head tail)
    (hfew : s.ninstances < maxInstLlist) (hk : Absent cfg (view s.mem) k) (r : Option (Nat × Inst))
    (hadd : add ≠ .lookup) (ho : Offers s (view s.mem) add) :
    ∃ t h, s.create cfg r none k add = some (t, ⟨some s.fresh, h, none⟩) ∧ WF cfg t ∧
      view t.mem = Function.update ((view s.mem).without (goneHandle r)) s.fresh (some (newEntry cfg k h)) ∧
      Allots s add h := by
  obtain ⟨s1, hs1, hW1, hview1, hsteady, hle, head1, tail1, hr1⟩ := hW.recovered_list hr r
  have hh := hW1.holds
  rw [hr1] at hh
  obtain ⟨l, _, hl, hn⟩ := hh
  have hfew1 : l.length < 4294967295 := by
    unfold maxInstLlist at hfew
    omega
  have hsub : ∀ x, Unused (view s.mem) x → Unused (view s1.mem) x := fun x hx a e he => by
    rw [hview1] at he
    exact hx a e (without_some he)
  have ho1 : Offers s1 (view s1.mem) add := by
    refine ⟨fun x hx => hsub x (ho.set x hx), fun hnew hrec hlt => ?_⟩
    rw [hsteady.lastHandle] at hlt ⊢
    exact hsub _ (ho.next hnew (hsteady.recycle ▸ hrec) hlt)
  obtain ⟨h, last, recycle, hallot, hun, hal⟩ := hW1.allotHandle hl hfew1 hadd ho1
  have hk1 : Absent cfg (view s1.mem) k := fun a e he => by
    rw [hview1] at he
    exact hk a e (without_some he)
  obtain ⟨t, ht, hWt, hviewt⟩ := hW1.enter_list hr1 hk1 hun last recycle none
  refine ⟨t.counted, h, ?_, hWt, ?_, hal.set, fun hnew hrec hlt => ?_⟩
  · simp only [State.create, hs1, hallot, ht, map_some]
    rw [hsteady.fresh]
  · rw [← hview1, ← hsteady.fresh]
    exact hviewt
  · rw [← hsteady.lastHandle] at hlt ⊢
    exact hal.next hnew (hsteady.recycle.trans hrec) hlt

structure Small (s : State) (add : Add) : Prop where
  set : ∀ x, add = .setH x → x.toNat < 2 ^ 31
  next : add = .newH → s.recycle = false ∧ s.lastHandle.toNat + 1 < 2 ^ 31

theorem toNat_succ {x : Handle} (h : x.toNat + 1 < 2 ^ 31) : (x + 1).toNat = x.toNat + 1 := by
  show (x.toNat + 1) % 2 ^ 32 = x.toNat + 1
  omega

theorem allotHandle_small (hadd : add ≠ .lookup) (ho : Offers s d add) (hs : Small s add) :
    ∃ h last recycle, s.allotHandle add = some (h, last, recycle) ∧ Unused d h ∧ h.toNat < 2 ^ 31 ∧
      Allots s add h := by
  cases add with
  | lookup => exact absurd rfl hadd
  | setH x =>
    exact ⟨x, s.lastHandle, s.recycle, rfl, ho.set x rfl, hs.set x rfl,
      (fun y hy => Add.setH.inj hy), nofun⟩
  | newH =>
    obtain ⟨hrec, hsmall⟩ := hs.next rfl
    have hlt : s.lastHandle < maxInstHandle := by
      show s.lastHandle.toNat < 4294967295
      omega
    have hnext : s.nextHandle (2 ^ 32) s.lastHandle false = some (s.lastHandle + 1, false) :=
      nextHandle_plain hlt 4294967295
    refine ⟨s.lastHandle + 1, s.lastHandle + 1, false, ?_, ho.next rfl hrec hlt, ?_, nofun,
      fun _ _ _ => rfl⟩
    · simp only [State.allotHandle, hrec, hnext, map_some]
    · rw [toNat_succ hsmall]
      exact hsmall

theorem WF.create_skip (hW : WF cfg s) (hr : s.rep = .skip hashes handles)
    (hk : Absent cfg (view s.mem) k) (hhash : ∀ a e, view s.mem a = some e → e.hash ≠ cfg.hashFromKey k)
    (hadd : add ≠ .lookup) (ho : Offers s (view s.mem) add) (hs : Small s add) :
    ∃ hashes' n t h, SkipList.insert hashes (hashCmpFct s.mem (cfg.hashFromKey k)) s.nodes (cfg.level s.nodes) none =
        some (hashes', n, true) ∧
      State.create cfg { s with nodes := s.nodes + 1, rep := .skip hashes' handles } none (some n.addr) k add =
        some (t, ⟨some s.fresh, h, none⟩) ∧
      WF cfg t ∧ view t.mem = Function.update (view s.mem) s.fresh (some (newEntry cfg k h)) ∧ Allots s add h := by
  have hh := hW.holds
  rw [hr] at hh
  obtain ⟨hI, hU, hlen⟩ := hh
  obtain ⟨pre, post, n, lvl, hl, hpre, hpost, hna, hnd, hins⟩ :=
    SkipList.insert_absent (hI.compares_hash (cfg.hashFromKey k)) hI.hashOrder (hI.hash_ne fun a e _ he => hhash a e he)
      s.nodes (cfg.level s.nodes) none
  let s1 : State := { s with nodes := s.nodes + 1, rep := .skip ⟨pre ++ n :: post, lvl⟩ handles }
  have ho1 : Offers s1 (view s.mem) add := ⟨ho.set, ho.next⟩
  have hs1 : Small s1 add := ⟨hs.set, hs.next⟩
  obtain ⟨h, last, recycle, hallot, hun, hsmall, hal⟩ := allotHandle_small hadd ho1 hs1
  -- The new record is at an address that is in no list yet.
  let s2 := s.allocate cfg k h last recycle
  have hview : view s2.mem = _ := view_allocate k h last recycle
  have hother : ∀ a, Live (view s.mem) a → view s2.mem a = view s.mem a := by
    rintro a ⟨e, he⟩
    rw [hview, update_of_ne (hW.map.bound a e he).ne]
  have hI' : Indexed (view s2.mem) (Live (view s.mem)) s.nodes hashes handles := hI.congr hother
  have hsame : ∀ m ∈ hashes.nodes, hashOf (view s2.mem) m.data = hashOf (view s.mem) m.data := by
    intro m hm
    obtain ⟨a, e, ha, hP, he⟩ := hI.hash_node hm
    rw [ha, hashOf_some he, hashOf_some ((hother a hP).trans he)]
  have hpre' : ∀ m ∈ pre, hashOf (view s2.mem) m.data < (newInst cfg k h).hash := by
    intro m hm
    rw [hsame m (hl ▸ List.mem_append_left _ hm)]
    exact hpre m hm
  have hpost' : ∀ m ∈ post, (newInst cfg k h).hash < hashOf (view s2.mem) m.data := by
    intro m hm
    rw [hsame m (hl ▸ List.mem_append_right _ hm)]
    exact hpost m hm
  have hnew : ∀ b f, Live (view s.mem) b → view s2.mem b = some f → f.handle ≠ (newInst cfg k h).handle := by
    intro b f hb hf
    rw [hother b hb] at hf
    exact hun b f hf
  obtain ⟨ls, hls, hmem, hI'', hlen'⟩ := hI'.enter cfg (k := lvl) (update_self _ _ _) hsmall hnew hl hpre' hpost'
    hna hnd
  have hviewls : view ls.mem = Function.update (view s.mem) s.fresh (some (newEntry cfg k h)) := by
    rw [hmem, view_update, hview]
    exact update_idem _ _ _
  have hP : (fun b => Live (view s.mem) b ∨ b = s.fresh) = Live (view ls.mem) := by
    funext b
    rw [hviewls, live_update_some]
  refine ⟨⟨pre ++ n :: post, lvl⟩, n, { s2 with
      mem := ls.mem, nodes := ls.nodes, rep := .skip ls.hashes ls.handles, ninstances := s.ninstances + 1 }, h,
    hins, ?_, ⟨?_, ?_, ?_, ?_⟩, hviewls, ⟨hal.set, hal.next⟩⟩
  · show s1.create cfg none (some n.addr) k add = _
    simp only [State.create, State.recovered, hallot]
    have henter : (s1.allocate cfg k h last recycle).enter cfg (some n.addr) h s1.fresh =
        some { s1.allocate cfg k h last recycle with
          mem := ls.mem, nodes := ls.nodes, rep := .skip ls.hashes ls.handles } := by
      exact congrArg (Option.map _) hls
    rw [henter]
    rfl
  · rw [hviewls]
    exact hW.map.enter hk hun
  · rw [← hP, hviewls, ← hview]
    exact hI''
  · show Unlinked ls.mem (Live (view ls.mem))
    intro b jp hb hjp
    rw [hmem] at hjp
    by_cases hbf : b = s.fresh
    · subst hbf
      rw [update_self] at hjp
      exact some.inj hjp ▸ rfl
    rw [← hP] at hb
    rw [update_of_ne hbf] at hjp
    have hjp' : s.mem b = some jp := by
      rw [← hjp]
      exact (update_of_ne hbf _ _).symm
    exact hU b jp (hb.resolve_right hbf) hjp'
  · rw [hlen', hlen]

end

end Qeo.Directory
