import QeoCore.Directory
/-!
# DirectoryMap — a directory as a map, and the lists that hold it

Seen from outside a directory is a partial function from addresses to what never changes about an instance (`Dir`).  Two
structures hold it: the chain of the list (`Linked.Chain`), and the two skiplists (`Indexed`).
-/
namespace Qeo.Directory

open Option Function Linked SkipList

variable {e : Entry} {a : Nat}

structure Entry where
  handle : Handle
  hash : KeyHash
  key : Option (List Octet)

def Inst.entry (ip : Inst) : Entry := ⟨ip.handle, ip.hash, ip.key⟩

abbrev Dir := Nat → Option Entry

def view (mem : Mem) : Dir := fun a => (mem a).map Inst.entry

def Entry.bytes (cfg : Config) (e : Entry) : List Octet :=
  match e.key with
  | some k => k
  | none => e.hash.take cfg.keySize

def newEntry (cfg : Config) (k : Key cfg) (h : Handle) : Entry := (newInst cfg k h).entry

theorem view_some (h : mem a = some ip) : view mem a = some ip.entry := by
  rw [view, h, map_some]

theorem exists_of_view (h : view mem a = some e) : ∃ ip, mem a = some ip ∧ ip.entry = e := map_eq_some_iff.1 h

theorem view_update (mem : Mem) (a : Nat) (o : Option Inst) :
    view (Function.update mem a o) = Function.update (view mem) a (o.map Inst.entry) := by
  funext b
  by_cases hb : b = a
  · subst hb
    rw [view, update_self, update_self]
  · rw [view, update_of_ne hb, update_of_ne hb, view]

theorem view_relinked {mem mem' : Mem} (h : Relinked links mem mem') : view mem' = view mem := by
  have hstrip : ∀ (m : Mem) (a : Nat), view m a = ((m a).map (links.setNext none)).map Inst.entry := by
    intro m a
    rw [map_map]
    rfl
  funext a
  rw [hstrip, hstrip, h a]

/-! ## Keys and hashes -/

section
variable {cfg : Config}

theorem hashFromKey_short (hs : cfg.short = true) (k : Key cfg) :
    cfg.hashFromKey k = k.bytes ++ List.replicate (16 - cfg.keySize) 0 := if_pos hs

theorem bytes_newEntry (k : Key cfg) (h : Handle) : (newEntry cfg k h).bytes cfg = k.bytes := by
  by_cases hs : cfg.short = true
  · show Entry.bytes cfg ⟨h, cfg.hashFromKey k, if cfg.short then none else some k.bytes⟩ = k.bytes
    rw [if_pos hs, hashFromKey_short hs, Entry.bytes, ← k.sized hs, List.take_left]
  · show Entry.bytes cfg ⟨h, cfg.hashFromKey k, if cfg.short then none else some k.bytes⟩ = k.bytes
    rw [if_neg hs, Entry.bytes]

theorem bytes_eq_of_hash (hs : cfg.short = true) (h : cfg.hashFromKey k = cfg.hashFromKey k') :
    k.bytes = k'.bytes := by
  rw [hashFromKey_short hs, hashFromKey_short hs] at h
  exact (List.append_inj h ((k.sized hs).trans (k'.sized hs).symm)).1

end

/-! ## Maps -/

/-- **The directory is a map from keys and from handles.** -/
structure IsMap (cfg : Config) (d : Dir) (fresh : Nat) : Prop where
  bound : ∀ a e, d a = some e → a < fresh
  made : ∀ a e, d a = some e → ∃ k : Key cfg, e = newEntry cfg k e.handle
  keys : ∀ a b e f, d a = some e → d b = some f → e.bytes cfg = f.bytes cfg → a = b
  handles : ∀ a b e f, d a = some e → d b = some f → e.handle = f.handle → a = b

def Absent (cfg : Config) (d : Dir) (k : Key cfg) : Prop := ∀ a e, d a = some e → e.bytes cfg ≠ k.bytes

section
variable {cfg : Config} {d : Dir} {fresh : Nat}

theorem isMap_empty : IsMap cfg (fun _ => none) fresh where
  bound := nofun
  made := nofun
  keys := nofun
  handles := nofun

theorem of_update_none (h : Function.update d a none b = some e) : b ≠ a ∧ d b = some e := by
  by_cases hb : b = a
  · subst hb
    rw [update_self] at h
    cases h
  · rw [update_of_ne hb] at h
    exact ⟨hb, h⟩

theorem IsMap.erase (h : IsMap cfg d fresh) (a : Nat) : IsMap cfg (Function.update d a none) fresh where
  bound := fun b e hb => h.bound b e (of_update_none hb).2
  made := fun b e hb => h.made b e (of_update_none hb).2
  keys := fun b c e f hb hc => h.keys b c e f (of_update_none hb).2 (of_update_none hc).2
  handles := fun b c e f hb hc => h.handles b c e f (of_update_none hb).2 (of_update_none hc).2

theorem of_update_some (h : Function.update d a (some f) b = some e) :
    (b = a ∧ e = f) ∨ (b ≠ a ∧ d b = some e) := by
  by_cases hb : b = a
  · subst hb
    rw [update_self] at h
    exact .inl ⟨rfl, (Option.some.inj h).symm⟩
  · rw [update_of_ne hb] at h
    exact .inr ⟨hb, h⟩

theorem IsMap.enter (h : IsMap cfg d fresh) (hk : Absent cfg d k) (hx : ∀ a e, d a = some e → e.handle ≠ x) :
    IsMap cfg (Function.update d fresh (some (newEntry cfg k x))) (fresh + 1) where
  bound := fun b e hb => by
    rcases of_update_some hb with ⟨rfl, _⟩ | ⟨_, hb⟩
    · exact Nat.lt_succ_self b
    · exact Nat.lt_succ_of_lt (h.bound b e hb)
  made := fun b e hb => by
    rcases of_update_some hb with ⟨_, rfl⟩ | ⟨_, hb⟩
    · exact ⟨k, rfl⟩
    · exact h.made b e hb
  keys := fun b c e f hb hc heq => by
    rcases of_update_some hb with ⟨rfl, rfl⟩ | ⟨_, hb⟩ <;> rcases of_update_some hc with ⟨rfl, rfl⟩ | ⟨_, hc⟩
    · rfl
    · exact absurd (heq.symm.trans (bytes_newEntry k x)) (hk c f hc)
    · exact absurd (heq.trans (bytes_newEntry k x)) (hk b e ‹_›)
    · exact h.keys b c e f hb hc heq
  handles := fun b c e f hb hc heq => by
    rcases of_update_some hb with ⟨rfl, rfl⟩ | ⟨_, hb⟩ <;> rcases of_update_some hc with ⟨rfl, rfl⟩ | ⟨_, hc⟩
    · rfl
    · exact absurd heq.symm (hx c f hc)
    · exact absurd heq (hx b e ‹_›)
    · exact h.handles b c e f hb hc heq

theorem IsMap.hash_ne_of_short (h : IsMap cfg d fresh) (hs : cfg.short = true) (hk : Absent cfg d k)
    (ha : d a = some e) : e.hash ≠ cfg.hashFromKey k := by
  intro heq
  obtain ⟨k', hk'⟩ := h.made a e ha
  have hbytes : k'.bytes = k.bytes := by
    apply bytes_eq_of_hash hs
    rw [← heq, hk']
    rfl
  apply hk a e ha
  rw [hk', bytes_newEntry, hbytes]

end

/-! ## Two skiplists -/

def hashOf (d : Dir) (x : Option Nat) : KeyHash := ((x.bind d).map Entry.hash).getD []

def handleOf (d : Dir) (a : Nat) : Nat := ((d a).map fun e => e.handle.toNat).getD 0

structure Indexed (d : Dir) (P : Nat → Prop) (nodes : Nat) (hashes : HashList) (handles : HandleList) : Prop where
  live : ∀ a, P a → ∃ e, d a = some e ∧ e.handle.toNat < 2 ^ 31
  hashOrder : Ordered (hashOf d) hashes.nodes
  handleOrder : Ordered (handleOf d) handles.nodes
  hashMem : ∀ x, (∃ n ∈ hashes.nodes, n.data = x) ↔ ∃ a, x = some a ∧ P a
  handleMem : ∀ a, (∃ n ∈ handles.nodes, n.data = a) ↔ P a
  hashAddr : ∀ n ∈ hashes.nodes, n.addr < nodes
  handleAddr : ∀ n ∈ handles.nodes, n.addr < nodes

theorem indexed_empty : Indexed d (fun _ => False) nodes SkipList.empty SkipList.empty where
  live := fun _ h => h.elim
  hashOrder := List.Pairwise.nil
  handleOrder := List.Pairwise.nil
  hashMem := fun x => ⟨(fun ⟨n, hn, _⟩ => by cases hn), fun ⟨_, _, h⟩ => h.elim⟩
  handleMem := fun a => ⟨(fun ⟨n, hn, _⟩ => by cases hn), fun h => h.elim⟩
  hashAddr := nofun
  handleAddr := nofun

/-! ### Comparisons -/

theorem toInt_small {a : Handle} (ha : a.toNat < 2 ^ 31) : a.toInt32.toInt = a.toNat := by
  show a.toBitVec.toInt = _
  rw [BitVec.toInt_eq_toNat_of_lt]
  · rfl
  · show 2 * a.toNat < 2 ^ 32
    omega

theorem compare_small {a b : Handle} (ha : a.toNat < 2 ^ 31) (hb : b.toNat < 2 ^ 31) :
    compare (a.toInt32 - b.toInt32).toInt 0 = compare a.toNat b.toNat := by
  have hsub : (a.toInt32 - b.toInt32).toInt = (a.toNat : Int) - b.toNat := by
    rw [Int32.toInt_sub, toInt_small ha, toInt_small hb]
    apply Int.bmod_eq_of_le <;> omega
  rcases Nat.lt_trichotomy a.toNat b.toNat with h | h | h
  · rw [compare_lt_iff_lt.2 h, compare_lt_iff_lt]
    omega
  · rw [compare_eq_iff_eq.2 h, compare_eq_iff_eq]
    omega
  · rw [compare_gt_iff_gt.2 h, compare_gt_iff_gt]
    omega

theorem eq_of_compare {a b : Handle} (h : compare (a.toInt32 - b.toInt32).toInt 0 = .eq) : a = b := by
  have h0 : (a.toInt32 - b.toInt32).toInt = (0 : Int32).toInt := compare_eq_iff_eq.1 h
  have h1 : a.toBitVec - b.toBitVec = 0#32 := congrArg Int32.toBitVec (Int32.toInt_inj.1 h0)
  apply UInt32.toBitVec_inj.1
  bv_omega

section
variable {d : Dir} {P : Nat → Prop} {nodes : Nat} {hashes : HashList} {handles : HandleList} {mem : Mem}

theorem hashOf_some (h : d a = some e) : hashOf d (some a) = e.hash := by
  simp [hashOf, h, getD_some]

theorem handleOf_some (h : d a = some e) : handleOf d a = e.handle.toNat := by
  simp [handleOf, h, getD_some]

theorem hashCmpFct_some (h : view mem a = some e) (hp : KeyHash) :
    hashCmpFct mem hp (some a) = some (memcmp e.hash hp) := by
  obtain ⟨ip, hip, rfl⟩ := exists_of_view h
  simp only [hashCmpFct, bind_some, hip, map_some]
  rfl

theorem handleCmpFct_some (h : view mem a = some e) (x : Handle) :
    handleCmpFct mem x a = some (compare (e.handle.toInt32 - x.toInt32).toInt 0) := by
  obtain ⟨ip, hip, rfl⟩ := exists_of_view h
  simp only [handleCmpFct, hip, map_some]
  rfl

namespace Indexed

theorem hash_node (hI : Indexed d P nodes hashes handles) (hn : n ∈ hashes.nodes) :
    ∃ a e, n.data = some a ∧ P a ∧ d a = some e := by
  obtain ⟨a, ha, hP⟩ := (hI.hashMem n.data).1 ⟨n, hn, rfl⟩
  obtain ⟨e, he, _⟩ := hI.live a hP
  exact ⟨a, e, ha, hP, he⟩

theorem handle_node (hI : Indexed d P nodes hashes handles) (hn : n ∈ handles.nodes) :
    ∃ e, P n.data ∧ d n.data = some e ∧ e.handle.toNat < 2 ^ 31 := by
  have hP := (hI.handleMem n.data).1 ⟨n, hn, rfl⟩
  obtain ⟨e, he, hsmall⟩ := hI.live n.data hP
  exact ⟨e, hP, he, hsmall⟩

theorem compares_hash (hI : Indexed (view mem) P nodes hashes handles) (hp : KeyHash) :
    Compares (hashOf (view mem)) (hashCmpFct mem hp) hp hashes.nodes := by
  intro n hn
  obtain ⟨a, e, ha, _, he⟩ := hI.hash_node hn
  rw [ha, hashCmpFct_some he, hashOf_some he]
  rfl

theorem compares_handle (hI : Indexed (view mem) P nodes hashes handles) (hx : x.toNat < 2 ^ 31) :
    Compares (handleOf (view mem)) (handleCmpFct mem x) x.toNat handles.nodes := by
  intro n hn
  obtain ⟨e, _, he, hsmall⟩ := hI.handle_node hn
  rw [handleCmpFct_some he, handleOf_some he, compare_small hsmall hx]

theorem congr (hI : Indexed d P nodes hashes handles) (h : ∀ a, P a → d' a = d a) :
    Indexed d' P nodes hashes handles where
  live := fun a ha => by rw [h a ha]; exact hI.live a ha
  hashOrder := by
    refine List.Pairwise.imp_of_mem (fun {m n} hm hn hlt => ?_) hI.hashOrder
    obtain ⟨a, e, ha, hPa, _⟩ := hI.hash_node hm
    obtain ⟨b, f, hb, hPb, _⟩ := hI.hash_node hn
    rw [ha, hb] at hlt ⊢
    simpa only [hashOf, bind_some, h a hPa, h b hPb] using hlt
  handleOrder := by
    refine List.Pairwise.imp_of_mem (fun {m n} hm hn hlt => ?_) hI.handleOrder
    have hPa := (hI.handleMem m.data).1 ⟨m, hm, rfl⟩
    have hPb := (hI.handleMem n.data).1 ⟨n, hn, rfl⟩
    simpa only [handleOf, h _ hPa, h _ hPb] using hlt
  hashMem := hI.hashMem
  handleMem := hI.handleMem
  hashAddr := hI.hashAddr
  handleAddr := hI.handleAddr

theorem mono (hI : Indexed d P nodes hashes handles) (h : nodes ≤ nodes') : Indexed d P nodes' hashes handles :=
  { hI with
    hashAddr := fun n hn => Nat.lt_of_lt_of_le (hI.hashAddr n hn) h
    handleAddr := fun n hn => Nat.lt_of_lt_of_le (hI.handleAddr n hn) h }

/-! ### Searches -/

theorem search_hash_present (hI : Indexed (view mem) P nodes hashes handles) (hP : P a) (he : view mem a = some e) :
    ∃ n ∈ hashes.nodes, n.data = some a ∧ SkipList.search hashes (hashCmpFct mem e.hash) = some (some n) := by
  obtain ⟨n, hn, hdata⟩ := (hI.hashMem (some a)).2 ⟨a, rfl, hP⟩
  refine ⟨n, hn, hdata, SkipList.search_present (hI.compares_hash _) hI.hashOrder hn ?_⟩
  rw [hdata, hashOf_some he]

theorem hash_ne (hI : Indexed d P nodes hashes handles)
    (h : ∀ a e, P a → d a = some e → e.hash ≠ hp) : ∀ n ∈ hashes.nodes, hashOf d n.data ≠ hp := by
  intro n hn
  obtain ⟨a, e, ha, hP, he⟩ := hI.hash_node hn
  rw [ha, hashOf_some he]
  exact h a e hP he

theorem search_hash_absent (hI : Indexed (view mem) P nodes hashes handles)
    (h : ∀ a e, P a → view mem a = some e → e.hash ≠ hp) :
    SkipList.search hashes (hashCmpFct mem hp) = some none :=
  SkipList.search_absent (hI.compares_hash hp) hI.hashOrder (hI.hash_ne h)

theorem search_handle (hI : Indexed (view mem) P nodes hashes handles) (x : Handle) :
    (∃ n e, n ∈ handles.nodes ∧ P n.data ∧ view mem n.data = some e ∧ e.handle = x ∧
      SkipList.search handles (handleCmpFct mem x) = some (some n)) ∨
    ((∀ a e, P a → view mem a = some e → e.handle ≠ x) ∧
      SkipList.search handles (handleCmpFct mem x) = some none) := by
  have htotal : ∀ n ∈ handles.nodes, ∃ o, handleCmpFct mem x n.data = some o := by
    intro n hn
    obtain ⟨e, _, he, _⟩ := hI.handle_node hn
    exact ⟨_, handleCmpFct_some he x⟩
  obtain ⟨r, hr, hhit⟩ := SkipList.search_total htotal
  cases r with
  | some n =>
    obtain ⟨hn, heq⟩ := hhit n rfl
    obtain ⟨e, hP, he, _⟩ := hI.handle_node hn
    rw [handleCmpFct_some he x] at heq
    exact .inl ⟨n, e, hn, hP, he, eq_of_compare (Option.some.inj heq), hr⟩
  | none =>
    refine .inr ⟨fun a e hP he hx => ?_, hr⟩
    -- A live handle is small, so that the comparisons are those of an order and the search does not miss it.
    obtain ⟨f, hf, hsmall⟩ := hI.live a hP
    rw [he] at hf
    cases hf
    subst hx
    obtain ⟨n, hn, rfl⟩ := (hI.handleMem a).2 hP
    have hfound := SkipList.search_present (hI.compares_handle hsmall) hI.handleOrder hn (handleOf_some he)
    rw [hr] at hfound
    cases hfound

end Indexed

end

/-! ## Entering, leaving and converting the two representations

Nothing here changes the view of the directory: the lists are rebuilt around the instances, and the links of the
instances with them.
-/

open List Directory.Lists SkipList

section
variable (cfg : Config) {mem : Mem} {P : Nat → Prop} {nodes : Nat} {hashes : HashList} {handles : HandleList}

theorem mem_split {α : Type} {pre post : List (Node α)} {n : Node α} {x : α} :
    (∃ m ∈ pre ++ n :: post, m.data = x) ↔ (∃ m ∈ pre ++ post, m.data = x) ∨ n.data = x := by
  simp only [perm_middle.mem_iff, mem_cons, or_and_right, exists_or, exists_eq_left]
  exact or_comm

namespace Indexed

theorem enlist (hI : Indexed (view mem) P nodes hashes handles) (he : view mem a = some e)
    (hsmall : e.handle.toNat < 2 ^ 31) (hnew : ∀ b f, P b → view mem b = some f → f.handle ≠ e.handle) :
    ∃ handles', Lists.enlist cfg ⟨mem, nodes, hashes, handles⟩ e.handle a =
        some ⟨mem, nodes + 1, hashes, handles'⟩ ∧
      SkipList.Ordered (handleOf (view mem)) handles'.nodes ∧
      (∀ b, (∃ n ∈ handles'.nodes, n.data = b) ↔ P b ∨ b = a) ∧
      (∀ n ∈ handles'.nodes, n.addr < nodes + 1) ∧ handles'.nodes.length = handles.nodes.length + 1 := by
  have hne : ∀ n ∈ handles.nodes, handleOf (view mem) n.data ≠ e.handle.toNat := by
    intro n hn heq
    obtain ⟨f, hP, hf, _⟩ := hI.handle_node hn
    rw [handleOf_some hf] at heq
    exact hnew n.data f hP hf (UInt32.toNat_inj.1 heq)
  obtain ⟨pre, post, n, k, hl, hpre, hpost, hna, hnd, hins⟩ :=
    SkipList.insert_absent (hI.compares_handle hsmall) hI.handleOrder hne nodes (cfg.level nodes) a
  have haddr : ∀ m ∈ pre ++ post, m.addr ≠ n.addr := by
    intro m hm
    rw [hna]
    exact (hI.handleAddr m (hl ▸ hm)).ne
  have hstore : SkipList.store ⟨pre ++ n :: post, k⟩ n.addr a = ⟨pre ++ n :: post, k⟩ := by
    rw [SkipList.store_split a haddr, ← hnd]
  refine ⟨⟨pre ++ n :: post, k⟩, ?_, ?_, ?_, ?_, ?_⟩
  · simp [Lists.enlist, hins, hstore]
  · apply SkipList.ordered_insert (hl ▸ hI.handleOrder) <;> rwa [hnd, handleOf_some he]
  · intro b
    rw [mem_split, ← hl, hI.handleMem, hnd, eq_comm (a := a)]
  · intro m hm
    rcases mem_cons.1 (perm_middle.mem_iff.1 hm) with rfl | hm
    · rw [hna]
      exact Nat.lt_succ_self nodes
    · exact Nat.lt_succ_of_lt (hI.handleAddr m (hl ▸ hm))
  · rw [hl]
    simp only [length_append, length_cons]
    omega

theorem enter (hI : Indexed (view mem) P nodes hashes handles) (ha : mem a = some ip)
    (hsmall : ip.handle.toNat < 2 ^ 31) (hnew : ∀ b f, P b → view mem b = some f → f.handle ≠ ip.handle)
    (hl : hashes.nodes = pre ++ post)
    (hpre : ∀ m ∈ pre, hashOf (view mem) m.data < ip.hash) (hpost : ∀ m ∈ post, ip.hash < hashOf (view mem) m.data)
    (hna : n.addr = nodes) (hnd : n.data = none) :
    ∃ ls, ((chain ⟨mem, nodes + 1, ⟨pre ++ n :: post, k⟩, handles⟩ n.addr a).bind fun ls =>
        ls.enlist cfg ip.handle a) = some ls ∧
      ls.mem = Function.update mem a (some { ip with next := none }) ∧
      Indexed (view mem) (fun b => P b ∨ b = a) ls.nodes ls.hashes ls.handles ∧
      ls.handles.nodes.length = handles.nodes.length + 1 := by
  have haddr : ∀ m ∈ pre ++ post, m.addr ≠ n.addr := by
    intro m hm
    rw [hna]
    exact (hI.hashAddr m (hl ▸ hm)).ne
  let mem' : Mem := Function.update mem a (some { ip with next := none })
  have hview : view mem' = view mem := view_relinked (Relinked.setNext (L := links) ha none)
  have hchain : chain ⟨mem, nodes + 1, ⟨pre ++ n :: post, k⟩, handles⟩ n.addr a =
      some ⟨mem', nodes + 1, ⟨pre ++ { n with data := some a } :: post, k⟩, handles⟩ := by
    simp only [mem', chain, SkipList.node?_split haddr, ha, hnd, SkipList.store_split (some a) haddr]
  have he : view mem a = some ip.entry := view_some ha
  have hI' : Indexed (view mem') P (nodes + 1) hashes handles :=
    hview ▸ hI.mono (Nat.le_succ nodes)
  obtain ⟨handles', henl, hord, hmem, hadr, hlen⟩ := hI'.enlist cfg (hview ▸ he) hsmall (hview ▸ hnew)
  rw [hview] at hord
  refine ⟨⟨mem', nodes + 1 + 1, ⟨pre ++ { n with data := some a } :: post, k⟩, handles'⟩, ?_, rfl, ?_, hlen⟩
  · rw [hchain, Option.bind_some]
    have := henl
    simp only [Lists.enlist, Option.map_eq_some_iff] at this ⊢
    obtain ⟨r, hr, heq⟩ := this
    refine ⟨r, hr, ?_⟩
    cases heq
    rfl
  exact {
    live := fun b hb => by
      rcases hb with hb | rfl
      · exact hI.live b hb
      · exact ⟨ip.entry, he, hsmall⟩
    hashOrder := by
      apply SkipList.ordered_insert (hl ▸ hI.hashOrder) <;> rwa [hashOf_some he]
    handleOrder := hord
    hashMem := fun x => by
      rw [mem_split, ← hl, hI.hashMem]
      constructor
      · rintro (⟨b, hx, hP⟩ | hx)
        · exact ⟨b, hx, .inl hP⟩
        · exact ⟨a, hx.symm, .inr rfl⟩
      · rintro ⟨b, rfl, hP | rfl⟩
        · exact .inl ⟨b, rfl, hP⟩
        · exact .inr rfl
    handleMem := hmem
    hashAddr := fun m hm => by
      rcases mem_cons.1 (perm_middle.mem_iff.1 hm) with rfl | hm
      · show n.addr < nodes + 2
        rw [hna]
        exact Nat.lt_add_of_pos_right (by decide)
      · exact Nat.lt_add_right 2 (hI.hashAddr m (hl ▸ hm))
    handleAddr := hadr }

theorem leave (hI : Indexed d P nodes hashes handles) (k k' : Nat)
    (hl : hashes.nodes = pre ++ n :: post) (hn : n.data = some a)
    (hl' : handles.nodes = pre' ++ n' :: post') (hn' : n'.data = a) :
    Indexed d (fun b => P b ∧ b ≠ a) nodes ⟨pre ++ post, k⟩ ⟨pre' ++ post', k'⟩ := by
  have ho := hl ▸ hI.hashOrder
  have ho' := hl' ▸ hI.handleOrder
  exact {
    live := fun b hb => hI.live b hb.1
    hashOrder := SkipList.ordered_delete ho
    handleOrder := SkipList.ordered_delete ho'
    hashMem := fun x => by
      constructor
      · rintro ⟨m, hm, rfl⟩
        obtain ⟨b, hb, hP⟩ := (hI.hashMem m.data).1 (hl ▸ mem_split.2 (.inl ⟨m, hm, rfl⟩))
        refine ⟨b, hb, hP, fun hba => ?_⟩
        apply SkipList.ne_of_ordered ho hm
        rw [hb, hn, hba]
      · rintro ⟨b, rfl, hP, hba⟩
        have hx := (hI.hashMem (some b)).2 ⟨b, rfl, hP⟩
        rw [hl] at hx
        rcases mem_split.1 hx with hx | hx
        · exact hx
        · rw [hn] at hx
          exact absurd (Option.some.inj hx).symm hba
    handleMem := fun b => by
      constructor
      · rintro ⟨m, hm, rfl⟩
        refine ⟨(hI.handleMem m.data).1 (hl' ▸ mem_split.2 (.inl ⟨m, hm, rfl⟩)), fun hba => ?_⟩
        apply SkipList.ne_of_ordered ho' hm
        rw [hba, hn']
      · rintro ⟨hP, hba⟩
        have hx := (hI.handleMem b).2 hP
        rw [hl'] at hx
        rcases mem_split.1 hx with hx | hx
        · exact hx
        · exact absurd (hx.symm.trans hn') hba
    hashAddr := fun m hm => hI.hashAddr m (hl ▸ ((sublist_cons_self n post).append_left pre).subset hm)
    handleAddr := fun m hm => hI.handleAddr m (hl' ▸ ((sublist_cons_self n' post').append_left pre').subset hm) }

end Indexed

/-! ## From the list to the skiplists -/

def Unlinked (mem : Mem) (P : Nat → Prop) : Prop := ∀ a ip, P a → mem a = some ip → ip.next = none

structure Apart (d : Dir) (P : Nat → Prop) : Prop where
  small : ∀ a, P a → ∃ e, d a = some e ∧ e.handle.toNat < 2 ^ 31
  hash : ∀ a b e f, P a → P b → d a = some e → d b = some f → e.hash = f.hash → a = b
  handle : ∀ a b e f, P a → P b → d a = some e → d b = some f → e.handle = f.handle → a = b

theorem convert_one (hI : Indexed (view ls.mem) P ls.nodes ls.hashes ls.handles)
    (hU : Unlinked ls.mem P) (hA : Apart (view ls.mem) fun b => P b ∨ b = a) (ha : ¬ P a) :
    ∃ ls', convert cfg ls a = some ls' ∧ Relinked links ls.mem ls'.mem ∧
      Indexed (view ls'.mem) (fun b => P b ∨ b = a) ls'.nodes ls'.hashes ls'.handles ∧
      Unlinked ls'.mem (fun b => P b ∨ b = a) ∧ ls'.handles.nodes.length = ls.handles.nodes.length + 1 := by
  obtain ⟨e, he, hsmall⟩ := hA.small a (.inr rfl)
  obtain ⟨ip, hip, rfl⟩ := exists_of_view he
  have hne : ∀ b f, P b → view ls.mem b = some f → f.hash ≠ ip.hash := fun b f hP hf heq =>
    ha (hA.hash b a f ip.entry (.inl hP) (.inr rfl) hf he heq ▸ hP)
  have hne' : ∀ b f, P b → view ls.mem b = some f → f.handle ≠ ip.handle := fun b f hP hf heq =>
    ha (hA.handle b a f ip.entry (.inl hP) (.inr rfl) hf he heq ▸ hP)
  obtain ⟨pre, post, n, k, hl, hpre, hpost, hna, hnd, hins⟩ :=
    SkipList.insert_absent (hI.compares_hash ip.hash) hI.hashOrder (hI.hash_ne hne) ls.nodes (cfg.level ls.nodes) none
  obtain ⟨ls', hls, hmem, hI', hlen⟩ := hI.enter cfg (k := k) hip hsmall hne' hl hpre hpost hna hnd
  have hrel : Relinked links ls.mem ls'.mem := hmem ▸ Relinked.setNext (L := links) hip none
  refine ⟨ls', ?_, hrel, (view_relinked hrel).symm ▸ hI', ?_, hlen⟩
  · simp only [convert, hip, hins]
    exact hls
  intro b jp hb hjp
  rw [hmem] at hjp
  by_cases hba : b = a
  · subst hba
    rw [Function.update_self] at hjp
    exact Option.some.inj hjp ▸ rfl
  · rw [Function.update_of_ne hba] at hjp
    exact hU b jp (hb.resolve_right hba) hjp

theorem Apart.mono (h : Apart d P) (hQ : ∀ a, Q a → P a) : Apart d Q where
  small := fun a ha => h.small a (hQ a ha)
  hash := fun a b e f ha hb => h.hash a b e f (hQ a ha) (hQ b hb)
  handle := fun a b e f ha hb => h.handle a b e f (hQ a ha) (hQ b hb)

/-- All rounds: the induction is on the rest of the chain, the instances done so far are those of `P`. -/
theorem convert_all : ∀ {l : List Nat} {P : Nat → Prop} {ls : Lists},
    Indexed (view ls.mem) P ls.nodes ls.hashes ls.handles → Unlinked ls.mem P →
    Apart (view ls.mem) (fun b => P b ∨ b ∈ l) → (∀ a ∈ l, ¬ P a) → l.Nodup →
    ∃ ls', l.foldlM (convert cfg) ls = some ls' ∧ Relinked links ls.mem ls'.mem ∧
      Indexed (view ls'.mem) (fun b => P b ∨ b ∈ l) ls'.nodes ls'.hashes ls'.handles ∧
      Unlinked ls'.mem (fun b => P b ∨ b ∈ l) ∧ ls'.handles.nodes.length = ls.handles.nodes.length + l.length
  | [], P, ls, hI, hU, _, _, _ => by
    have hP : (fun b => P b ∨ b ∈ ([] : List Nat)) = P := by simp
    exact ⟨ls, rfl, .refl, hP.symm ▸ hI, hP.symm ▸ hU, rfl⟩
  | a :: l, P, ls, hI, hU, hA, hnP, hnodup => by
    obtain ⟨hal, hl⟩ := nodup_cons.1 hnodup
    have hP : (fun b => P b ∨ b ∈ a :: l) = fun b => (P b ∨ b = a) ∨ b ∈ l := by
      funext b
      rw [mem_cons]
      ac_rfl
    rw [hP] at hA ⊢
    obtain ⟨ls1, hls1, hrel1, hI1, hU1, hlen1⟩ := convert_one cfg hI hU
      (hA.mono fun b hb => .inl hb) (hnP a mem_cons_self)
    have hnP1 : ∀ b ∈ l, ¬ (P b ∨ b = a) := by
      rintro b hb (hPb | rfl)
      · exact hnP b (mem_cons_of_mem _ hb) hPb
      · exact hal hb
    obtain ⟨ls2, hls2, hrel2, hI2, hU2, hlen2⟩ := convert_all hI1 hU1 ((view_relinked hrel1).symm ▸ hA) hnP1 hl
    refine ⟨ls2, ?_, hrel1.trans hrel2, hI2, hU2, ?_⟩
    · rw [foldlM_cons, hls1]
      exact hls2
    · rw [length_cons]
      omega

/-! ## From the skiplists to the list -/

theorem cvt_all : ∀ {l done : List Nat} {mem : Mem} {head tail : Option Nat}, Chain links mem head tail done →
    (∀ a ∈ l, a ∉ done ∧ ∃ ip, mem a = some ip ∧ ip.next = none) → l.Nodup →
    ∃ mem' head' tail', l.foldlM cvtFct (mem, head, tail) = some (mem', head', tail') ∧
      Chain links mem' head' tail' (done ++ l) ∧ Relinked links mem mem'
  | [], done, mem, head, tail, hC, _, _ => ⟨mem, head, tail, rfl, (append_nil done).symm ▸ hC, .refl⟩
  | a :: l, done, mem, head, tail, hC, hl, hnodup => by
    obtain ⟨hal, hl'⟩ := nodup_cons.1 hnodup
    obtain ⟨hadone, ip, hip, hnext⟩ := hl a mem_cons_self
    obtain ⟨mem1, head1, hpush, hC1, hframe, hrel⟩ := hC.pushBack hadone hip hnext
    have hip1 : mem1 a = some ip := (hframe a hadone).trans hip
    have hcvt : cvtFct (mem, head, tail) a = some (mem1, head1, some a) := by
      have hsame : ({ ip with next := none } : Inst) = ip := by rw [← hnext]
      simp only [cvtFct, hpush, hip1, hsame]
      rw [← hip1, Function.update_eq_self]
    have hrest : ∀ b ∈ l, b ∉ done ++ [a] ∧ ∃ jp, mem1 b = some jp ∧ jp.next = none := by
      intro b hb
      obtain ⟨hbdone, jp, hjp, hjnext⟩ := hl b (mem_cons_of_mem _ hb)
      refine ⟨fun hm => ?_, jp, (hframe b hbdone).trans hjp, hjnext⟩
      rcases mem_append.1 hm with hm | hm
      · exact hbdone hm
      · exact hal (mem_singleton.1 hm ▸ hb)
    obtain ⟨mem2, head2, tail2, hfold, hC2, hrel2⟩ := cvt_all hC1 hrest hl'
    refine ⟨mem2, head2, tail2, ?_, ?_, hrel.trans hrel2⟩
    · rw [foldlM_cons, hcvt]
      exact hfold
    · rw [append_assoc] at hC2
      exact hC2

end

end Qeo.Directory
