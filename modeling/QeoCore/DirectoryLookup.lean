import QeoCore.DirectoryCreate
/-!
# DirectoryLookup — what a lookup answers

`Served` says what an answer has to be, in terms of the live instances alone.  `WF.getInstanceKey`: that is what
`hc_get_instance_key` answers in either representation, as long as an addition fits (`RequestFits`).
-/
namespace Qeo.Directory

open List hiding head tail
open SkipList (Node)

/-! ## The conditions of an addition -/

def State.insts (s : State) : List Inst := (List.range s.fresh).filterMap s.mem

open State Linked Inst

def Rep.isSkip : Rep → Bool
  | .list _ _ => false
  | .skip _ _ => true

def State.long (s : State) : Bool := s.rep.isSkip || decide (maxInstLlist ≤ s.ninstances)

def State.hasRecoverable (cfg : Config) (s : State) : Bool := !cfg.writer && s.insts.any canRecover

def State.atLimit (cfg : Config) (s : State) : Bool :=
  decide (cfg.maxInst ≤ s.ninstances) && !s.hasRecoverable cfg

def HandleFits (s : State) : Add → Prop
  | .setH x => (∀ ip ∈ s.insts, ip.handle ≠ x) ∧ (s.long = true → x.toNat < 2 ^ 31)
  | _ => (s.recycle = false → s.lastHandle < maxInstHandle → ∀ ip ∈ s.insts, ip.handle ≠ s.lastHandle + 1) ∧
      (s.long = true → s.recycle = false ∧ s.lastHandle.toNat + 1 < 2 ^ 31)

def KeyFits (cfg : Config) (s : State) (k : Key cfg) : Prop :=
  s.long = true →
    (∀ ip ∈ s.insts, ip.hash ≠ cfg.hashFromKey k ∧ ip.handle.toNat < 2 ^ 31) ∧ (s.insts.map hash).Nodup ∧
      ¬ (cfg.maxInst ≤ s.ninstances ∧ s.hasRecoverable cfg = true)

def RequestFits (cfg : Config) (s : State) (k : Key cfg) (m : Mode) : Prop :=
  m.adds = true → (∃ ip ∈ s.insts, cfg.keyBytes ip = k.bytes) ∨ (HandleFits s m.add ∧ KeyFits cfg s k)

instance (s : State) : (add : Add) → Decidable (HandleFits s add)
  | .setH x => inferInstanceAs (Decidable ((∀ ip ∈ s.insts, ip.handle ≠ x) ∧ (s.long = true → x.toNat < 2 ^ 31)))
  | .lookup | .newH =>
    inferInstanceAs (Decidable ((s.recycle = false → s.lastHandle < maxInstHandle →
      ∀ ip ∈ s.insts, ip.handle ≠ s.lastHandle + 1) ∧
      (s.long = true → s.recycle = false ∧ s.lastHandle.toNat + 1 < 2 ^ 31)))

instance (cfg : Config) (s : State) (k : Key cfg) : Decidable (KeyFits cfg s k) :=
  inferInstanceAs (Decidable (s.long = true → _ ∧ _ ∧ _))

instance (cfg : Config) (s : State) (k : Key cfg) (m : Mode) : Decidable (RequestFits cfg s k m) :=
  inferInstanceAs (Decidable (m.adds = true → _ ∨ _))

/-! ## The answers -/

def checked (cfg : Config) (s : State) (m : Mode) (a : Nat) (ip : Inst) : Answer :=
  if m.cause && m.adds && cfg.mustAck then checkLimits cfg s m a ip else ⟨some a, ip.handle, none⟩

inductive Served (cfg : Config) (s : State) (k : Key cfg) (m : Mode) : Dir → Answer → Prop
  /-- The live instance made for the key. -/
  | found {a : Nat} {ip : Inst} : s.mem a = some ip → cfg.keyBytes ip = k.bytes →
    Served cfg s k m (view s.mem) (checked cfg s m a ip)
  /-- A lookup of a key that no live instance was made for. -/
  | missing {ans : Answer} : Absent cfg (view s.mem) k → m.adds = false → ans.inst = none → ans.handle = 0 →
    Served cfg s k m (view s.mem) ans
  /-- No room for another instance. -/
  | limit : Absent cfg (view s.mem) k → m.adds = true → s.atLimit cfg = true →
    Served cfg s k m (view s.mem) (m.reject .instanceLimit)
  /-- No room for another sample. -/
  | full : Absent cfg (view s.mem) k → m.adds = true → s.atLimit cfg = false → s.samplesFull cfg m = true →
    Served cfg s k m (view s.mem) (m.reject .samplesLimit)
  /-- A new instance, in the place of a recovered one if the limit is reached. -/
  | created {d : Dir} {h : Handle} {x : Option Handle} : Absent cfg (view s.mem) k → m.adds = true →
    s.atLimit cfg = false → s.samplesFull cfg m = false →
    (∀ y, x = some y → cfg.maxInst ≤ s.ninstances ∧
      ∃ a ip, s.mem a = some ip ∧ ip.canRecover = true ∧ ip.handle = y) →
    d = Function.update ((view s.mem).without x) s.fresh (some (newEntry cfg k h)) → Allots s m.add h →
    Served cfg s k m d ⟨some s.fresh, h, none⟩

section
variable {cfg : Config} {s : State} {k : Key cfg} {handles : HandleList} {ip : Inst} {m : Mode} {a : Nat}

theorem WF.mem_insts (hW : WF cfg s) : ip ∈ s.insts ↔ ∃ a, s.mem a = some ip := by
  rw [insts, mem_filterMap]
  constructor
  · rintro ⟨a, _, ha⟩
    exact ⟨a, ha⟩
  · rintro ⟨a, ha⟩
    exact ⟨a, mem_range.2 (hW.map.bound a _ (view_some ha)), ha⟩

/-! ## Recovery -/

theorem WF.walk (hW : WF cfg s) : ∃ l, s.walk = some l ∧ ∀ a, a ∈ l ↔ Live (view s.mem) a := by
  have hh := hW.holds
  cases hr : s.rep with
  | list head tail =>
    rw [hr] at hh
    obtain ⟨l, hC, hl, _⟩ := hh
    refine ⟨l, ?_, hl⟩
    simp only [State.walk, hr]
    exact addrs_seg hC.seg (length_le_fresh hW.map (fun a ha => (hl a).1 ha) hC.nodup)
  | skip hashes handles =>
    rw [hr] at hh
    refine ⟨handles.nodes.map Node.data, ?_, fun a => ?_⟩
    · simp only [State.walk, hr]
    · rw [mem_map]
      exact hh.1.handleMem a

theorem older_none : older old p = none ↔ old = none ∧ p.2.canRecover = false := by
  unfold older
  cases old with
  | none => cases p.2.canRecover <;> simp
  | some o =>
    split
    · simp
    · simp

theorem foldl_older_none : ∀ {l : List (Nat × Inst)} {old : Option (Nat × Inst)},
    l.foldl older old = none ↔ old = none ∧ ∀ p ∈ l, p.2.canRecover = false
  | [], old => by simp
  | p :: l, old => by rw [foldl_cons, foldl_older_none, older_none, forall_mem_cons, and_assoc]

theorem foldl_older_some : ∀ {l : List (Nat × Inst)} {old : Option (Nat × Inst)} {q : Nat × Inst},
    l.foldl older old = some q → old = some q ∨ (q ∈ l ∧ q.2.canRecover = true)
  | [], _, _, h => .inl h
  | p :: l, old, q, h => by
    rw [foldl_cons] at h
    rcases foldl_older_some h with h | ⟨hq, hc⟩
    · unfold older at h
      split at h
      · rename_i hcond
        cases h
        exact .inr ⟨mem_cons_self, (Bool.and_eq_true_iff.1 hcond).1⟩
      · exact .inl h
    · exact .inr ⟨mem_cons_of_mem _ hq, hc⟩

theorem mapM_records {mem : Mem} : ∀ {l : List Nat}, (∀ a ∈ l, ∃ ip, mem a = some ip) →
    ∃ ps, (l.mapM fun a => (mem a).map fun ip => (a, ip)) = some ps ∧ ∀ a ip, (a, ip) ∈ ps ↔ a ∈ l ∧ mem a = some ip
  | [], _ => ⟨[], rfl, fun a ip => by simp⟩
  | b :: l, hl => by
    obtain ⟨jp, hjp⟩ := hl b mem_cons_self
    obtain ⟨ps, hps, hmem⟩ := mapM_records (forall_mem_cons.1 hl).2
    refine ⟨(b, jp) :: ps, ?_, fun a ip => ?_⟩
    · rw [mapM_cons, hjp, hps]
      rfl
    rw [mem_cons, mem_cons, hmem, Prod.mk.injEq]
    constructor
    · rintro (⟨rfl, rfl⟩ | ⟨ha, hip⟩)
      · exact ⟨.inl rfl, hjp⟩
      · exact ⟨.inr ha, hip⟩
    rintro ⟨rfl | ha, hip⟩
    · rw [hjp] at hip
      exact .inl ⟨rfl, (Option.some.inj hip).symm⟩
    · exact .inr ⟨ha, hip⟩

theorem WF.recoverable (hW : WF cfg s) :
    ∃ r, s.recoverable cfg = some r ∧ r.isSome = s.hasRecoverable cfg ∧
      ∀ a ip, r = some (a, ip) → s.mem a = some ip ∧ ip.canRecover = true := by
  unfold State.recoverable
  by_cases hw : cfg.writer = true
  · rw [if_pos hw]
    refine ⟨none, rfl, ?_, nofun⟩
    rw [hasRecoverable, hw]
    rfl
  obtain ⟨l, hwalk, hl⟩ := hW.walk
  have hrec : ∀ a ∈ l, ∃ ip, s.mem a = some ip := by
    intro a ha
    obtain ⟨e, he⟩ := (hl a).1 ha
    obtain ⟨ip, hip, _⟩ := exists_of_view he
    exact ⟨ip, hip⟩
  obtain ⟨ps, hps, hmem⟩ := mapM_records hrec
  rw [if_neg hw]
  simp only [hwalk, hps, Option.map_some]
  refine ⟨_, rfl, ?_, fun a ip h => ?_⟩
  · rw [hasRecoverable, Bool.eq_false_iff.2 hw, Bool.not_false, Bool.true_and, Bool.eq_iff_iff,
      Option.isSome_iff_ne_none, any_eq_true, ne_eq, foldl_older_none]
    constructor
    · intro hne
      by_contra hnone
      refine hne ⟨rfl, fun p hp => ?_⟩
      by_contra hp'
      exact hnone ⟨p.2, hW.mem_insts.2 ⟨p.1, ((hmem p.1 p.2).1 hp).2⟩, Bool.not_eq_false _ ▸ hp'⟩
    · rintro ⟨ip, hip, hc⟩ ⟨_, hall⟩
      obtain ⟨a, ha⟩ := hW.mem_insts.1 hip
      have := hall (a, ip) ((hmem a ip).2 ⟨(hl a).2 (live_of_mem ha), ha⟩)
      rw [hc] at this
      cases this
  · rcases foldl_older_some h with h | ⟨hq, hc⟩
    · cases h
    · exact ⟨((hmem a ip).1 hq).2, hc⟩

theorem WF.toRecover (hW : WF cfg s) (hm : m.adds = true) :
    ∃ r, s.toRecover cfg m = some r ∧ (decide (cfg.maxInst ≤ s.ninstances) && r.isNone) = s.atLimit cfg ∧
      (∀ a ip, r = some (a, ip) → s.mem a = some ip ∧ ip.canRecover = true ∧ cfg.maxInst ≤ s.ninstances) ∧
      (¬ (cfg.maxInst ≤ s.ninstances ∧ s.hasRecoverable cfg = true) → r = none) := by
  by_cases hmax : cfg.maxInst ≤ s.ninstances
  · obtain ⟨r, hr, hsome, hmem⟩ := hW.recoverable
    refine ⟨r, ?_, ?_, fun a ip h => ⟨(hmem a ip h).1, (hmem a ip h).2, hmax⟩, fun hno => ?_⟩
    · rw [State.toRecover, if_pos ⟨hm, hmax⟩, hr]
    · rw [atLimit, ← hsome, Option.not_isSome]
    · have hf : s.hasRecoverable cfg = false := Bool.eq_false_iff.2 fun h => hno ⟨hmax, h⟩
      rw [hf] at hsome
      exact Option.isSome_eq_false_iff.1 hsome |> Option.isNone_iff_eq_none.1
  · refine ⟨none, ?_, ?_, nofun, fun _ => rfl⟩
    · rw [State.toRecover, if_neg fun h => hmax h.2]
    · rw [atLimit, decide_eq_false hmax, Bool.false_and, Bool.false_and]

/-! ## Keys -/

theorem keyBytes_entry (ip : Inst) : cfg.keyBytes ip = ip.entry.bytes cfg := rfl

theorem IsMap.one_key (h : IsMap cfg (view s.mem) s.fresh) (k : List Octet) (a b : Nat) (ip jp : Inst)
    (ha : s.mem a = some ip) (hb : s.mem b = some jp) (hx : (cfg.keyBytes ip == k) = true)
    (hy : (cfg.keyBytes jp == k) = true) : a = b :=
  h.keys a b ip.entry jp.entry (view_some ha) (view_some hb) ((beq_iff_eq.1 hx).trans (beq_iff_eq.1 hy).symm)

theorem IsMap.made_for (h : IsMap cfg (view s.mem) s.fresh) (ha : s.mem a = some ip) (hk : cfg.keyBytes ip = k.bytes) :
    ip.hash = cfg.hashFromKey k ∧ (cfg.short = false → ip.key = some k.bytes) := by
  obtain ⟨k', hk'⟩ := h.made a ip.entry (view_some ha)
  have hbytes : k'.bytes = k.bytes := by rw [← hk, keyBytes_entry, hk', bytes_newEntry]
  have hhash : ip.hash = cfg.hashFromKey k' := congrArg Entry.hash hk'
  refine ⟨?_, fun hs => ?_⟩
  · rw [hhash, Config.hashFromKey, Config.hashFromKey, hbytes]
  · have hkey : ip.key = if cfg.short then none else some k'.bytes := congrArg Entry.key hk'
    rw [hkey, hs, if_neg Bool.false_ne_true, hbytes]

theorem hcCheck_some (h : s.mem a = some ip) : hcCheck cfg s m a = some (checked cfg s m a ip) := by
  rw [hcCheck, h, Option.map_some, checked]

theorem WF.collide_found (hW : WF cfg s) (ha : s.mem a = some ip)
    (hk : cfg.keyBytes ip = k.bytes) (hn : n.data = some a) (r : Option (Nat × Inst)) (m : Mode) :
    s.collide cfg r n k m = some (s, checked cfg s m a ip) := by
  simp only [collide, hn, hcCheck_some ha, Option.map_some]
  by_cases hs : cfg.short = true
  · rw [if_pos hs]
  have hkey := (hW.map.made_for ha hk).2 (Bool.eq_false_iff.2 hs)
  have hpos : 0 < s.fresh := Nat.lt_of_le_of_lt (Nat.zero_le a) (hW.map.bound a _ (view_some ha))
  have hsearch : search links s.mem (fun ip => ip.key == some k.bytes) s.fresh none (some a) =
      some (some (none, a)) := by
    obtain ⟨fuel, hfuel⟩ := Nat.exists_eq_succ_of_ne_zero hpos.ne'
    rw [hfuel]
    simp [search, ha, hkey]
  rw [if_neg hs]
  simp only [hsearch]

theorem WF.collide_missing (hW : WF cfg s) (ha : s.mem a = some ip) (hnext : ip.next = none)
    (hk : Absent cfg (view s.mem) k) (hhash : ip.hash = cfg.hashFromKey k)
    (hn : n.data = some a) (r : Option (Nat × Inst)) (hm : m.adds = false) :
    s.collide cfg r n k m = some (s, .notAccepted none) := by
  have hs : cfg.short = false := Bool.eq_false_iff.2 fun hs => hW.map.hash_ne_of_short hs hk (view_some ha) hhash
  obtain ⟨k', hk'⟩ := hW.map.made a ip.entry (view_some ha)
  have hkey : ip.key = some k'.bytes := by
    have hkey : ip.key = if cfg.short then none else some k'.bytes := congrArg Entry.key hk'
    rw [hkey, hs, if_neg Bool.false_ne_true]
  have hne : (ip.key == some k.bytes) = false := by
    rw [hkey, beq_eq_false_iff_ne]
    intro heq
    apply hk a ip.entry (view_some ha)
    rw [hk', bytes_newEntry, Option.some.inj heq]
  have hpos : 0 < s.fresh := Nat.lt_of_le_of_lt (Nat.zero_le a) (hW.map.bound a _ (view_some ha))
  have hsearch : search links s.mem (fun ip => ip.key == some k.bytes) s.fresh none (some a) = some none := by
    obtain ⟨fuel, hfuel⟩ := Nat.exists_eq_succ_of_ne_zero hpos.ne'
    have hnil : links.next ip = none := hnext
    rw [hfuel]
    simp [search, ha, hne, hnil]
  simp [collide, hn, hs, hsearch, hm]

/-! ## In the skiplists -/

structure SkipFits (cfg : Config) (s : State) (k : Key cfg) (add : Add) : Prop where
  offers : Offers s (view s.mem) add
  small : Small s add
  hash : ∀ a e, view s.mem a = some e → e.hash ≠ cfg.hashFromKey k
  recover : ¬ (cfg.maxInst ≤ s.ninstances ∧ s.hasRecoverable cfg = true)

theorem adds_iff : m.adds = true ↔ m.add ≠ .lookup := by
  rw [Mode.adds, bne_iff_ne]

theorem WF.viaHash_found (hW : WF cfg s) (hr : s.rep = .skip hashes handles)
    (ha : s.mem a = some ip) (hk : cfg.keyBytes ip = k.bytes) (m : Mode) :
    s.viaHash cfg hashes handles k m = some (s, checked cfg s m a ip) := by
  have hh := hW.holds
  rw [hr] at hh
  obtain ⟨hI, _, _⟩ := hh
  have hhash := (hW.map.made_for ha hk).1
  obtain ⟨n, hn, hnd, hsearch⟩ := hI.search_hash_present (live_of_mem ha) (view_some ha)
  have hsearch' : SkipList.search hashes (hashCmpFct s.mem (cfg.hashFromKey k)) = some (some n) := hhash ▸ hsearch
  have hof : hashOf (view s.mem) n.data = cfg.hashFromKey k := by
    rw [hnd, hashOf_some (view_some ha)]
    exact hhash
  have hins := SkipList.insert_present (hI.compares_hash (cfg.hashFromKey k)) hI.hashOrder hn hof s.nodes
    (cfg.level s.nodes) none
  obtain ⟨r, hrec⟩ : ∃ r, s.toRecover cfg m = some r := by
    unfold State.toRecover
    split
    · obtain ⟨r, hr, _⟩ := hW.recoverable
      exact ⟨r, hr⟩
    · exact ⟨none, rfl⟩
  simp only [viaHash, hrec, hsearch', hins, hW.collide_found ha hk hnd]
  split <;> rfl

theorem WF.viaHash_missing (hW : WF cfg s) (hr : s.rep = .skip hashes handles)
    (hk : Absent cfg (view s.mem) k) (hm : m.adds = false) :
    s.viaHash cfg hashes handles k m = some (s, .notAccepted none) := by
  have hh := hW.holds
  rw [hr] at hh
  obtain ⟨hI, hU, _⟩ := hh
  have hrec : s.toRecover cfg m = some none := by
    rw [State.toRecover, if_neg]
    rw [hm]
    exact fun h => Bool.false_ne_true h.1
  by_cases hex : ∃ a ip, s.mem a = some ip ∧ ip.hash = cfg.hashFromKey k
  · obtain ⟨a, ip, ha, hhash⟩ := hex
    obtain ⟨n, hn, hnd, hsearch⟩ := hI.search_hash_present (live_of_mem ha) (view_some ha)
    have hsearch' : SkipList.search hashes (hashCmpFct s.mem (cfg.hashFromKey k)) = some (some n) := hhash ▸ hsearch
    have hnext := hU a ip (live_of_mem ha) ha
    simp [viaHash, hrec, hm, hsearch', hW.collide_missing ha hnext hk hhash hnd none hm]
  · have hne : ∀ a e, Live (view s.mem) a → view s.mem a = some e → e.hash ≠ cfg.hashFromKey k := by
      intro a e _ he heq
      obtain ⟨ip, hip, rfl⟩ := exists_of_view he
      exact hex ⟨a, ip, hip, heq⟩
    simp [viaHash, hrec, hm, hI.search_hash_absent hne]

theorem WF.viaHash_adds (hW : WF cfg s) (hr : s.rep = .skip hashes handles)
    (hk : Absent cfg (view s.mem) k) (hm : m.adds = true) (hF : SkipFits cfg s k m.add) :
    ∃ t ans, s.viaHash cfg hashes handles k m = some (t, ans) ∧ WF cfg t ∧ Served cfg s k m (view t.mem) ans := by
  have hh := hW.holds
  rw [hr] at hh
  obtain ⟨hI, _, _⟩ := hh
  obtain ⟨r, hrec, hlim, _, hnone⟩ := hW.toRecover hm
  have hr0 : r = none := hnone hF.recover
  subst hr0
  have habs := hI.search_hash_absent (fun a e _ he => hF.hash a e he)
  by_cases hal : s.atLimit cfg = true
  · have hmax : cfg.maxInst ≤ s.ninstances := of_decide_eq_true (Bool.and_eq_true_iff.1 hal).1
    refine ⟨s, m.reject .instanceLimit, ?_, hW, .limit hk hm hal⟩
    simp [viaHash, hrec, decide_eq_true hmax, Option.isNone_none, Bool.and_self, habs, hm, if_pos hmax]
  have hal' : s.atLimit cfg = false := Bool.eq_false_iff.2 hal
  have hmax : ¬ cfg.maxInst ≤ s.ninstances := by
    intro hmax
    rw [hal', decide_eq_true hmax] at hlim
    cases hlim
  by_cases hfull : s.samplesFull cfg m = true
  · refine ⟨s, m.reject .samplesLimit, ?_, hW, .full hk hm hal' hfull⟩
    simp [viaHash, hrec, hfull, habs, hm, if_neg hmax]
  have hfull' : s.samplesFull cfg m = false := Bool.eq_false_iff.2 hfull
  obtain ⟨hashes', n, t, h, hins, hcreate, hWt, hview, hallots⟩ :=
    hW.create_skip hr hk hF.hash (adds_iff.1 hm) hF.offers hF.small
  refine ⟨t, _, ?_, hWt, .created (x := none) hk hm hal' hfull' nofun hview hallots⟩
  simp only [viaHash, hrec, decide_eq_false hmax, Bool.false_and, hfull', hm, Bool.not_true, Bool.or_false,
    Bool.false_eq_true, if_false, hins]
  exact hcreate

/-! ## In the list -/

theorem WF.offers (hW : WF cfg s) (h : HandleFits s add) : Offers s (view s.mem) add := by
  have hin : ∀ {x}, (∀ ip ∈ s.insts, ip.handle ≠ x) → Unused (view s.mem) x := by
    intro x hx a e he
    obtain ⟨ip, hip, rfl⟩ := exists_of_view he
    exact hx ip (hW.mem_insts.2 ⟨a, hip⟩)
  cases add with
  | setH x => exact ⟨(fun y hy => Add.setH.inj hy ▸ hin h.1), nofun⟩
  | lookup => exact ⟨nofun, nofun⟩
  | newH => exact ⟨nofun, fun _ hrec hlt => hin (h.1 hrec hlt)⟩

theorem small_of_fits (h : HandleFits s add) (hl : s.long = true) : Small s add := by
  cases add with
  | setH x => exact ⟨(fun y hy => Add.setH.inj hy ▸ h.2 hl), nofun⟩
  | lookup => exact ⟨nofun, nofun⟩
  | newH => exact ⟨nofun, fun _ => h.2 hl⟩

theorem WF.skipFits (hW : WF cfg s) (hh : HandleFits s add) (hk : KeyFits cfg s k)
    (hl : s.long = true) : SkipFits cfg s k add where
  offers := hW.offers hh
  small := small_of_fits hh hl
  hash := fun a e he => by
    obtain ⟨ip, hip, rfl⟩ := exists_of_view he
    exact ((hk hl).1 ip (hW.mem_insts.2 ⟨a, hip⟩)).1
  recover := (hk hl).2.2

theorem pairwise_range (h : (List.range n).Pairwise R) (hab : a < b) (hb : b < n) : R a b := by
  have hlen : (List.range n).length = n := length_range
  have := pairwise_iff_getElem.1 h a b (by omega) (by omega) hab
  rwa [getElem_range, getElem_range] at this

theorem WF.apart (hW : WF cfg s) (hk : KeyFits cfg s k) (hl : s.long = true) :
    Apart (view s.mem) (Live (view s.mem)) where
  small := fun a ha => by
    obtain ⟨e, he⟩ := ha
    obtain ⟨ip, hip, rfl⟩ := exists_of_view he
    exact ⟨_, he, ((hk hl).1 ip (hW.mem_insts.2 ⟨a, hip⟩)).2⟩
  hash := fun a b e f _ _ he hf heq => by
    obtain ⟨ip, hip, rfl⟩ := exists_of_view he
    obtain ⟨jp, hjp, rfl⟩ := exists_of_view hf
    -- The hashes of the live instances, in the order of their addresses, are distinct.
    have hnd := (hk hl).2.1
    rw [insts, map_filterMap, List.Nodup, pairwise_filterMap] at hnd
    have ha : (s.mem a).map hash = some ip.hash := by rw [hip, Option.map_some]
    have hb : (s.mem b).map hash = some jp.hash := by rw [hjp, Option.map_some]
    rcases Nat.lt_trichotomy a b with hab | hab | hab
    · exact absurd heq (pairwise_range hnd hab (hW.map.bound b _ hf) _ ha _ hb)
    · exact hab
    · exact absurd heq.symm (pairwise_range hnd hab (hW.map.bound a _ he) _ hb _ ha)
  handle := fun a b e f _ _ he hf heq => hW.map.handles a b e f he hf heq

theorem WF.convertToLong (hW : WF cfg s) (hr : s.rep = .list head tail) (hA : Apart (view s.mem) (Live (view s.mem))) :
    ∃ mem nodes hashes handles,
      s.convertToLong cfg head = some { s with mem := mem, nodes := nodes, rep := .skip hashes handles } ∧
      Relinked links s.mem mem ∧ WF cfg { s with mem := mem, nodes := nodes, rep := .skip hashes handles } := by
  have hh := hW.holds
  rw [hr] at hh
  obtain ⟨l, hC, hl, hn⟩ := hh
  have haddrs := addrs_seg hC.seg (length_le_fresh hW.map (fun a ha => (hl a).1 ha) hC.nodup)
  have hP : (fun b => False ∨ b ∈ l) = Live (view s.mem) := by
    funext b
    rw [false_or, hl b]
  obtain ⟨ls, hls, hrel, hI, hU, hlen⟩ :=
    @convert_all cfg l (fun _ => False) ⟨s.mem, s.nodes, SkipList.empty, SkipList.empty⟩
      indexed_empty (fun _ _ h => h.elim) (hP.symm ▸ hA) (fun _ _ h => h) hC.nodup
  have hview : view ls.mem = view s.mem := view_relinked hrel
  refine ⟨ls.mem, ls.nodes, ls.hashes, ls.handles, ?_, hrel, ⟨?_, ?_, ?_, ?_⟩⟩
  · simp [State.convertToLong, haddrs, hls]
  · rw [hview]
    exact hW.map
  · rw [hP] at hI
    rw [hview] at hI ⊢
    exact hI
  · rw [hP] at hU
    rw [hview]
    exact hU
  · rw [hlen, hn]
    exact (Nat.zero_add _).symm

structure Alike (s t : State) : Prop where
  mem : Relinked links s.mem t.mem
  fresh : t.fresh = s.fresh
  ninstances : t.ninstances = s.ninstances
  nchanges : t.nchanges = s.nchanges
  ndata : t.ndata = s.ndata
  lastHandle : t.lastHandle = s.lastHandle
  recycle : t.recycle = s.recycle

namespace Alike
variable {t : State}

theorem symm (h : Alike s t) : Alike t s where
  mem := fun a => (h.mem a).symm
  fresh := h.fresh.symm
  ninstances := h.ninstances.symm
  nchanges := h.nchanges.symm
  ndata := h.ndata.symm
  lastHandle := h.lastHandle.symm
  recycle := h.recycle.symm

theorem view_eq (h : Alike s t) : view t.mem = view s.mem := view_relinked h.mem

theorem exists_inst (h : Alike s t) (ha : t.mem a = some ip) :
    ∃ jp, s.mem a = some jp ∧ jp.info = ip.info ∧ jp.entry = ip.entry := by
  have hm := h.mem a
  rw [ha] at hm
  obtain ⟨jp, hjp, heq⟩ := Option.map_eq_some_iff.1 hm.symm
  have hinfo : (links.setNext none jp).info = (links.setNext none ip).info := congrArg info heq
  have hentry : (links.setNext none jp).entry = (links.setNext none ip).entry := congrArg entry heq
  exact ⟨jp, hjp, hinfo, hentry⟩

theorem canRecover_eq {jp : Inst} (h : jp.info = ip.info) : jp.canRecover = ip.canRecover := by
  rw [canRecover, canRecover, h]

section
variable (h : Alike s t)
include h

theorem recoverable_of (hr : t.hasRecoverable cfg = true) : s.hasRecoverable cfg = true := by
  simp only [hasRecoverable, Bool.and_eq_true, any_eq_true] at hr ⊢
  obtain ⟨hw, ip, hip, hc⟩ := hr
  simp only [insts, mem_filterMap, mem_range] at hip
  obtain ⟨a, ha, hip⟩ := hip
  obtain ⟨jp, hjp, hinfo, _⟩ := h.exists_inst hip
  refine ⟨hw, jp, ?_, (canRecover_eq hinfo).trans hc⟩
  simp only [insts, mem_filterMap, mem_range]
  exact ⟨a, h.fresh ▸ ha, hjp⟩

theorem hasRecoverable_eq : t.hasRecoverable cfg = s.hasRecoverable cfg := by
  rw [Bool.eq_iff_iff]
  exact ⟨h.recoverable_of, h.symm.recoverable_of⟩

theorem atLimit_eq : t.atLimit cfg = s.atLimit cfg := by
  rw [atLimit, atLimit, h.ninstances, h.hasRecoverable_eq]

theorem samplesFull_eq (m : Mode) : t.samplesFull cfg m = s.samplesFull cfg m := by
  rw [samplesFull, samplesFull, h.nchanges]

theorem allots (hx : Allots t add x) : Allots s add x where
  set := hx.set
  next := fun hn hrec hlt => by
    rw [← h.lastHandle] at hlt ⊢
    exact hx.next hn (h.recycle.trans hrec) hlt

theorem served (hs : Served cfg t k m d ans) : Served cfg s k m d ans := by
  cases hs with
  | @found a ip ha hk =>
    obtain ⟨jp, hjp, hinfo, hentry⟩ := h.exists_inst ha
    have hans : checked cfg t m a ip = checked cfg s m a jp := by
      have hhandle : jp.handle = ip.handle := congrArg Entry.handle hentry
      simp only [checked, checkLimits, hinfo, h.ndata, hhandle]
    rw [hans, h.view_eq]
    refine .found hjp ?_
    rw [keyBytes_entry, hentry]
    exact hk
  | missing hk hm hi hh => exact h.view_eq ▸ .missing (h.view_eq ▸ hk) hm hi hh
  | limit hk hm hl => exact h.view_eq ▸ .limit (h.view_eq ▸ hk) hm (h.atLimit_eq ▸ hl)
  | full hk hm hl hf => exact h.view_eq ▸ .full (h.view_eq ▸ hk) hm (h.atLimit_eq ▸ hl) (h.samplesFull_eq m ▸ hf)
  | created hk hm hl hf hx hd ha =>
    rw [h.fresh]
    rw [h.view_eq, h.fresh] at hd
    refine .created (h.view_eq ▸ hk) hm (h.atLimit_eq ▸ hl) (h.samplesFull_eq m ▸ hf) (fun y hy => ?_) hd (h.allots ha)
    obtain ⟨hmax, a, ip, hip, hc, hh⟩ := hx y hy
    obtain ⟨jp, hjp, hinfo, hentry⟩ := h.exists_inst hip
    exact ⟨h.ninstances ▸ hmax, a, jp, hjp, (canRecover_eq hinfo).trans hc, (congrArg Entry.handle hentry).trans hh⟩

end

end Alike

theorem WF.search_key_absent (hW : WF cfg s) (hr : s.rep = .list head tail) (hk : Absent cfg (view s.mem) k) :
    search links s.mem (fun ip => cfg.keyBytes ip == k.bytes) s.fresh none head = some none := by
  have hh := hW.holds
  rw [hr] at hh
  obtain ⟨l, hC, hl, _⟩ := hh
  rcases hW.search_list hC hl (fun ip => cfg.keyBytes ip == k.bytes) (hW.map.one_key k.bytes) with
    ⟨a, ip, l1, l2, _, hip, ht, _⟩ | ⟨_, hsearch⟩
  · exact absurd (beq_iff_eq.1 ht) (hk a ip.entry (view_some hip))
  · exact hsearch

theorem WF.list_adds (hW : WF cfg s) (hr : s.rep = .list head tail)
    (hk : Absent cfg (view s.mem) k) (hm : m.adds = true) (hh : HandleFits s m.add) (hkf : KeyFits cfg s k) :
    ∃ t ans, s.getInstanceKey cfg k m = some (t, ans) ∧ WF cfg t ∧ Served cfg s k m (view t.mem) ans := by
  have hsearch := hW.search_key_absent hr hk
  obtain ⟨r, hrec, hlim, hmem, _⟩ := hW.toRecover hm
  by_cases hal : s.atLimit cfg = true
  · refine ⟨s, m.reject .instanceLimit, ?_, hW, .limit hk hm hal⟩
    simp [State.getInstanceKey, hr, hsearch, hrec, hlim, hal]
  have hal' : s.atLimit cfg = false := Bool.eq_false_iff.2 hal
  by_cases hfull : s.samplesFull cfg m = true
  · refine ⟨s, m.reject .samplesLimit, ?_, hW, .full hk hm hal' hfull⟩
    simp [State.getInstanceKey, hr, hsearch, hrec, hlim, hal', hfull, hm]
  have hfull' : s.samplesFull cfg m = false := Bool.eq_false_iff.2 hfull
  simp only [State.getInstanceKey, hr, hsearch, hrec, hlim, hal', hfull', hm, Bool.not_true, Bool.or_false,
    Bool.false_eq_true, if_false]
  by_cases hmany : maxInstLlist ≤ s.ninstances
  · -- The list becomes too long: it is converted, and the rest is done by the skiplists.
    have hl : s.long = true := by rw [long, decide_eq_true hmany, Bool.or_true]
    obtain ⟨mem, nodes, hashes, handles, hconv, hrel, hW1⟩ := hW.convertToLong hr (hW.apart hkf hl)
    have hA : Alike s { s with mem := mem, nodes := nodes, rep := .skip hashes handles } :=
      ⟨hrel, rfl, rfl, rfl, rfl, rfl, rfl⟩
    have hF := hW.skipFits hh hkf hl
    have hF1 : SkipFits cfg { s with mem := mem, nodes := nodes, rep := .skip hashes handles } k m.add := by
      refine ⟨⟨?_, ?_⟩, ⟨hF.small.set, hF.small.next⟩, ?_, ?_⟩ <;> simp only [hA.view_eq, hA.hasRecoverable_eq]
      exacts [hF.offers.set, hF.offers.next, hF.hash, hF.recover]
    obtain ⟨t, ans, ht, hWt, hS⟩ := hW1.viaHash_adds rfl (hA.view_eq.symm ▸ hk) hm hF1
    refine ⟨t, ans, ?_, hWt, hA.served hS⟩
    simp only [if_pos hmany, hconv]
    exact ht
  obtain ⟨t, h, hcreate, hWt, hview, hallots⟩ :=
    hW.create_list hr (Nat.not_le.1 hmany) hk r (adds_iff.1 hm) (hW.offers hh)
  refine ⟨t, _, ?_, hWt, .created hk hm hal' hfull' (fun y hy => ?_) hview hallots⟩
  · rw [if_neg hmany]
    exact hcreate
  · obtain ⟨p, hp, rfl⟩ := Option.map_eq_some_iff.1 hy
    obtain ⟨hip, hc, hmax⟩ := hmem p.1 p.2 hp
    exact ⟨hmax, p.1, p.2, hip, hc, rfl⟩

/-- **`hc_get_instance_key` serves every request that fits, and keeps the directory well-formed.** -/
theorem WF.getInstanceKey (hW : WF cfg s) (hF : RequestFits cfg s k m) :
    ∃ t ans, s.getInstanceKey cfg k m = some (t, ans) ∧ WF cfg t ∧ Served cfg s k m (view t.mem) ans := by
  by_cases hp : ∃ a ip, s.mem a = some ip ∧ cfg.keyBytes ip = k.bytes
  · obtain ⟨a, ip, ha, hk⟩ := hp
    refine ⟨s, checked cfg s m a ip, ?_, hW, .found ha hk⟩
    cases hr : s.rep with
    | skip hashes handles => simp only [State.getInstanceKey, hr, hW.viaHash_found hr ha hk m]
    | list head tail =>
      have hh := hW.holds
      rw [hr] at hh
      obtain ⟨l, hC, hl, _⟩ := hh
      rcases hW.search_list hC hl (fun ip => cfg.keyBytes ip == k.bytes) (hW.map.one_key k.bytes) with
        ⟨b, jp, l1, l2, _, hjp, ht, hsearch⟩ | ⟨hnone, _⟩
      · obtain rfl : b = a := hW.map.one_key k.bytes b a jp ip hjp ha ht (beq_iff_eq.2 hk)
        simp [State.getInstanceKey, hr, hsearch, hcCheck_some ha]
      · have := hnone a ip ha
        rw [hk, beq_self_eq_true] at this
        cases this
  have hk : Absent cfg (view s.mem) k := by
    intro a e he heq
    obtain ⟨ip, hip, rfl⟩ := exists_of_view he
    exact hp ⟨a, ip, hip, heq⟩
  cases hm : m.adds with
  | true =>
    obtain ⟨hh, hkf⟩ := (hF hm).resolve_left fun ⟨ip, hip, hk⟩ =>
      have ⟨a, ha⟩ := hW.mem_insts.1 hip
      hp ⟨a, ip, ha, hk⟩
    cases hr : s.rep with
    | skip hashes handles =>
      have hl : s.long = true := by rw [long, hr, Rep.isSkip, Bool.true_or]
      obtain ⟨t, ans, ht, hWt, hS⟩ := hW.viaHash_adds hr hk hm (hW.skipFits hh hkf hl)
      refine ⟨t, ans, ?_, hWt, hS⟩
      simp only [State.getInstanceKey, hr, ht]
    | list head tail => exact hW.list_adds hr hk hm hh hkf
  | false =>
    cases hr : s.rep with
    | skip hashes handles =>
      refine ⟨s, .notAccepted none, ?_, hW, .missing hk hm rfl rfl⟩
      simp only [State.getInstanceKey, hr, hW.viaHash_missing hr hk hm]
    | list head tail =>
      refine ⟨s, m.reject .instanceLimit, ?_, hW, .missing hk hm rfl rfl⟩
      have hrec : s.toRecover cfg m = some none := by
        rw [State.toRecover, if_neg]
        rw [hm]
        exact fun h => Bool.false_ne_true h.1
      simp [State.getInstanceKey, hr, hW.search_key_absent hr hk, hrec, hm]

end

end Qeo.Directory
