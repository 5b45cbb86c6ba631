import Mathlib.Data.List.GetD
import Mathlib.Data.List.Induction
import Mathlib.Data.List.Nodup
import QeoCore.Forward
/-!
# ForwardLoop — when a forwarder knows a message that has been round

The InfoSource in front of a copy holds one entry per forwarder: the first one's is the sender, but every later one
copies the entry out of the memory behind what it has received.  `fwd_check_info_source` leaves out the last entry.
-/
namespace Qeo.Forward

open List Trace

variable {hops : List Hop} {m sent : Message} {data : List UInt8} {own : GuidPrefix}

/-! ## Bytes of an element -/

theorem Element.bytes_inside (e : Element) (h : ofs + len ≤ e.data.length) :
    e.bytes ofs len = (e.data.drop ofs).take len := by
  apply ext_getElem
  · simp only [bytes, length_map, length_range, length_take, length_drop]
    omega
  intro i hi _
  simp only [bytes, length_map, length_range] at hi
  simp only [bytes, byte, getElem_map, getElem_range, getElem_take, getElem_drop]
  exact getD_eq_getElem _ _ (by omega)

theorem Element.bytes_behind (e : Element) (len : Nat) :
    e.bytes 0 (len + e.data.length) = e.data ++ (range len).map fun i => e.behind (e.data.length + i) := by
  apply ext_getElem
  · simp only [bytes, length_map, length_range, length_append]
    omega
  intro i _ _
  simp only [bytes, byte, getElem_map, getElem_range, Nat.zero_add]
  by_cases h : i < e.data.length
  · rw [getD_eq_getElem _ _ h, getElem_append_left h]
  · rw [getD_eq_default _ _ (by omega), getElem_append_right (by omega), getElem_map, getElem_range]
    congr 1
    omega

/-! ## The entries of an InfoSource -/

def entryAt (data : List UInt8) (k : Nat) : List UInt8 := (data.drop (20 * k + 8)).take 12

theorem entryAt_succ (h : chunk.length = 20) (data : List UInt8) (k : Nat) :
    entryAt (chunk ++ data) (k + 1) = entryAt data k := by
  unfold entryAt
  rw [show 20 * (k + 1) + 8 = chunk.length + (20 * k + 8) by omega, ← drop_drop, drop_left]

theorem entryAt_zero (h : chunk.length = 20) (data : List UInt8) : entryAt (chunk ++ data) 0 = chunk.drop 8 := by
  unfold entryAt
  rw [drop_append_of_le_length (by omega), take_append_of_le_length (by rw [length_drop]; omega),
    take_of_length_le (by rw [length_drop]; omega)]

def Checked (own data : List UInt8) : Prop := ∃ k, 20 * (k + 1) < data.length ∧ entryAt data k = own

theorem checkEntries_iff (own : List UInt8) (e : Element) :
    ∀ fuel n, e.data.length ≤ 20 * n + fuel → (checkEntries own e fuel (20 * n) = true ↔
        ∃ k, n ≤ k ∧ 20 * (k + 1) < e.data.length ∧ entryAt e.data k = own)
  | 0, n, hf => by
    simp only [checkEntries, Bool.false_eq_true, false_iff]
    omega
  | fuel + 1, n, hf => by
    have ih := checkEntries_iff own e fuel (n + 1) (by omega)
    have hs : 20 * n + infoSourceSize = 20 * (n + 1) := rfl
    unfold checkEntries
    by_cases hlen : 20 * n + infoSourceSize < e.data.length
    · have hb : e.bytes (20 * n + 8) 12 = entryAt e.data n := e.bytes_inside (by omega)
      rw [if_pos hlen, hb, hs]
      by_cases ho : own = entryAt e.data n
      · rw [if_pos ho]
        exact ⟨fun _ => ⟨n, Nat.le_refl n, hlen, ho.symm⟩, fun _ => rfl⟩
      rw [if_neg ho, ih]
      constructor
      · rintro ⟨k, hk, h⟩
        exact ⟨k, by omega, h⟩
      · rintro ⟨k, hk, hl, he⟩
        have hne : k ≠ n := fun h => ho (h ▸ he.symm)
        exact ⟨k, by omega, hl, he⟩
    · rw [if_neg hlen]
      simp only [Bool.false_eq_true, false_iff]
      omega

theorem fwdCheckInfoSource_iff (fp : Forwarder) (e : Element) (pre : List UInt8) :
    (fwdCheckInfoSource fp e pre).1 = true ↔ Checked fp.guidPrefix.1 e.data := by
  refine (checkEntries_iff fp.guidPrefix.1 e e.data.length 0 (by omega)).trans ?_
  simp [Checked]

/-! ## The path of a copy -/

structure Hop where
  fp : Forwarder
  mem : Nat → Nat → UInt8
  mode : Mode

def Hop.pass (m : Message) (h : Hop) : Option Message := rfwdForward h.fp (m.arrive h.mem) h.mode

def Dropped (own : GuidPrefix) (m : Message) : Prop :=
  ∀ fp : Forwarder, fp.guidPrefix = own → ∀ mem src mode, (fwdParse fp (m.arrive mem) true src mode).remote = [] ∧
      (fwdParse fp (m.arrive mem) true src mode).localDsts = 0

def Plain (m : Message) : Prop := ∀ e ∈ m.elements, isInfoSource e = false

def senders (start : GuidPrefix) (hops : List Hop) : List GuidPrefix := start :: hops.map (·.fp.guidPrefix)

def Hop.stale (h : Hop) (ofs : Nat) : List UInt8 := (range 20).map fun i => h.mem 0 (ofs + i)

def staleEntries : Nat → List Hop → List UInt8
  | _, [] => []
  | ofs, h :: l => h.stale ofs ++ staleEntries (ofs + 20) l

def recorded (sent : Message) (hops : List Hop) : List UInt8 := sourceEntry sent ++ staleEntries 20 hops.tail

theorem Hop.stale_length (h : Hop) (ofs : Nat) : (h.stale ofs).length = 20 := by
  rw [Hop.stale, length_map, length_range]

theorem staleEntries_length : ∀ (ofs : Nat) (l : List Hop), (staleEntries ofs l).length = 20 * l.length
  | _, [] => rfl
  | ofs, h :: l => by
    rw [staleEntries, length_append, h.stale_length, staleEntries_length, length_cons]
    omega

theorem staleEntries_snoc (h : Hop) : ∀ (ofs : Nat) (l : List Hop),
    staleEntries ofs (l ++ [h]) = staleEntries ofs l ++ h.stale (ofs + 20 * l.length)
  | ofs, [] => by simp [staleEntries]
  | ofs, a :: l => by
    rw [cons_append, staleEntries, staleEntries_snoc, staleEntries, append_assoc, length_cons]
    congr 3
    omega

theorem sourceEntry_length (m : Message) : (sourceEntry m).length = 20 := by
  simp [sourceEntry, m.guidPrefix.2]

theorem recorded_length (sent : Message) (hops : List Hop) (h : hops ≠ []) :
    (recorded sent hops).length = 20 * hops.length := by
  obtain ⟨a, l, rfl⟩ := exists_cons_of_ne_nil h
  rw [recorded, length_append, sourceEntry_length, staleEntries_length, tail_cons, length_cons]
  omega

theorem recorded_snoc (sent : Message) (hops : List Hop) (h : Hop) (hne : hops ≠ []) :
    recorded sent (hops ++ [h]) = recorded sent hops ++ h.stale (20 * hops.length) := by
  obtain ⟨a, l, rfl⟩ := exists_cons_of_ne_nil hne
  rw [recorded, cons_append, tail_cons, staleEntries_snoc, recorded, append_assoc, length_cons]
  congr 3
  omega

/-! ## One hop -/

def submsg (id : SubmsgId) (multicast : Bool) (data : List UInt8) : Element :=
  ⟨true, id, multicast, false, BitVec.ofNat 16 data.length, data, fun _ => 0⟩

theorem newSubmsg_eq (id : SubmsgId) (multicast : Bool) (data : List UInt8) (h : data.length < 2 ^ 16) :
    newSubmsg id multicast data.length data = submsg id multicast data := by
  rw [newSubmsg, Nat.mod_eq_of_lt h, take_length]
  rfl

def sourceElement (data : List UInt8) : Element := submsg .infoSrc false data

def kept (fp : Forwarder) (mode : Mode) (l : List Element) : List Element :=
  let l := l.filter fun e => !isInfoSource e && !isInfoReply e
  if l.any wantsReply then infoReply fp mode :: l.map Element.swapped else l.map Element.swapped

theorem land_plain : ∀ (mem : Nat → Nat → UInt8) (l : List Element), (∀ e ∈ l, isInfoSource e = false) →
    (land mem l).find? isInfoSource = none
  | _, [], _ => rfl
  | mem, e :: l, h => by
    have he : isInfoSource { e.swapped with behind := mem 0 } = false := h e mem_cons_self
    rw [land, find?_cons_of_neg (Bool.not_eq_true _ ▸ he)]
    exact land_plain _ l fun e' he => h e' (mem_cons_of_mem e he)

theorem Hop.pass_plain (h : Hop) (hp : Plain m) :
    h.pass m = some ⟨ownVersion, ownVendor, h.fp.guidPrefix,
      sourceElement (sourceEntry m) :: kept h.fp h.mode (land h.mem m.elements)⟩ := by
  have hlen := sourceEntry_length m
  unfold Hop.pass rfwdForward
  rw [show (m.arrive h.mem).elements.find? isInfoSource = none from land_plain h.mem m.elements hp,
    sourceElement, ← newSubmsg_eq _ _ _ (by omega), hlen]
  rfl

theorem infoSourceData_some (e : Element) (entry : List UInt8) :
    infoSourceData (some e) entry = if e.data.length ≤ 88 then
      some (e.data ++ (range 20).map fun i => e.behind (e.data.length + i)) else none := by
  have hmax : maxElementData = 128 := rfl
  have hsize : infoSourceSize = 20 := rfl
  show (if maxElementData < e.data.length then none
    else if maxElementData < infoSourceSize + e.data.length + infoSourceSize then none
    else some (e.bytes 0 (infoSourceSize + e.data.length))) = _
  by_cases hd : e.data.length ≤ 88
  · rw [if_neg (by omega), if_neg (by omega), if_pos hd, hsize, e.bytes_behind]
  · split
    · rfl
    · rw [if_pos (by omega)]

theorem Hop.pass_source (h : Hop) (hm : m.elements = sourceElement data :: rest) :
    h.pass m = if data.length ≤ 88 then
      some ⟨ownVersion, ownVendor, h.fp.guidPrefix,
        sourceElement (data ++ h.stale data.length) :: kept h.fp h.mode (land (fun i => h.mem (i + 1)) rest)⟩
    else none := by
  have hl : (m.arrive h.mem).elements =
      { sourceElement data with behind := h.mem 0 } :: land (fun i => h.mem (i + 1)) rest := by
    show land h.mem m.elements = _
    rw [hm, land]
    rfl
  unfold Hop.pass rfwdForward
  rw [hl, find?_cons_of_pos rfl]
  dsimp only
  rw [infoSourceData_some]
  by_cases hd : data.length ≤ 88
  · have hlen : (data ++ h.stale data.length).length = infoSourceSize + data.length := by
      rw [length_append, h.stale_length, Nat.add_comm]
      rfl
    rw [if_pos hd, if_pos (show (sourceElement data).data.length ≤ 88 from hd),
      sourceElement, sourceElement, ← newSubmsg_eq _ _ (data ++ _) (by rw [hlen, infoSourceSize]; omega), hlen]
    rfl
  · rw [if_neg hd, if_neg (show ¬ (sourceElement data).data.length ≤ 88 from hd)]
    rfl

/-! ## A whole path -/

def lastSender (start : GuidPrefix) (hops : List Hop) : GuidPrefix :=
  (hops.getLast?.map (·.fp.guidPrefix)).getD start

theorem lastSender_snoc (start : GuidPrefix) (hops : List Hop) (h : Hop) :
    lastSender start (hops ++ [h]) = h.fp.guidPrefix := by
  rw [lastSender, getLast?_concat]
  rfl

structure Copy (sent : Message) (hops : List Hop) (m : Message) : Prop where
  header : m.guidPrefix = lastSender sent.guidPrefix hops
  first : hops = [] → m = sent
  later : hops ≠ [] → hops.length ≤ 5 ∧ ∃ rest, m.elements = sourceElement (recorded sent hops) :: rest

theorem Copy.pass {m' : Message} {h : Hop} (hp : Plain sent) (hc : Copy sent hops m)
    (hm : h.pass m = some m') : Copy sent (hops ++ [h]) m' := by
  by_cases hn : hops = []
  · rw [hc.first hn, h.pass_plain hp] at hm
    cases hm
    subst hn
    exact ⟨(lastSender_snoc sent.guidPrefix [] h).symm, fun hne => (cons_ne_nil _ _ hne).elim,
      fun _ => ⟨Nat.le_add_left 1 4, _, by rw [recorded, nil_append, tail_cons, staleEntries, append_nil]⟩⟩
  obtain ⟨hlen, rest, hel⟩ := hc.later hn
  have hrl := recorded_length sent hops hn
  rw [h.pass_source hel] at hm
  split at hm
  · cases hm
    refine ⟨(lastSender_snoc sent.guidPrefix hops h).symm, fun hne => ?_,
      fun _ => ⟨?_, kept h.fp h.mode (land (fun i => h.mem (i + 1)) rest), ?_⟩⟩
    · exact absurd hne (append_ne_nil_of_right_ne_nil _ (cons_ne_nil h []))
    · rw [length_append, length_singleton]
      omega
    · rw [recorded_snoc sent hops h hn, hrl]
  · cases hm

theorem Copy.start (sent : Message) : Copy sent [] sent := ⟨rfl, fun _ => rfl, fun h => absurd rfl h⟩

theorem Copy.of_run (hp : Plain sent) (hr : Run Hop.pass ok sent hops m) : Copy sent hops m :=
  hr.invariant (Copy sent) (.start sent) fun _ _ _ _ hc _ hm => hc.pass hp hm

/-! ## What is noticed -/

theorem entryAt_staleEntries : ∀ {ofs : Nat} {l : List Hop} {k : Nat}, l[k]? = some h →
    entryAt (staleEntries ofs l) k = (h.stale (ofs + 20 * k)).drop 8
  | ofs, a :: l, 0, hk => by
    cases hk
    rfl
  | ofs, a :: l, k + 1, hk => by
    rw [getElem?_cons_succ] at hk
    rw [staleEntries, entryAt_succ (a.stale_length ofs), entryAt_staleEntries hk]
    congr 2
    omega

theorem entryAt_recorded_zero (sent : Message) (hops : List Hop) :
    entryAt (recorded sent hops) 0 = sent.guidPrefix.1 := by
  rw [recorded, entryAt_zero (sourceEntry_length sent)]
  rfl

theorem entryAt_recorded_succ (sent : Message) (hk : hops[k + 1]? = some h) :
    entryAt (recorded sent hops) (k + 1) = (h.stale (20 * (k + 1))).drop 8 := by
  rw [recorded, entryAt_succ (sourceEntry_length sent)]
  rw [entryAt_staleEntries (by rw [getElem?_tail]; exact hk)]
  congr 2
  omega

/-- What the forwarder `own` can recognise of a copy that has passed `hops`: itself as the last sender, or as the
participant after two forwarders; or its prefix in memory a forwarder but the last has copied. -/
def Recognises (start : GuidPrefix) (hops : List Hop) (own : GuidPrefix) : Prop :=
  own = lastSender start hops ∨ (2 ≤ hops.length ∧ own = start) ∨
    ∃ k h, k + 2 < hops.length ∧ hops[k + 1]? = some h ∧ (h.stale (20 * (k + 1))).drop 8 = own.1

theorem checked_recorded_iff (sent : Message) (hne : hops ≠ []) (own : GuidPrefix) :
    Checked own.1 (recorded sent hops) ↔ (2 ≤ hops.length ∧ own = sent.guidPrefix) ∨
        ∃ k h, k + 2 < hops.length ∧ hops[k + 1]? = some h ∧ (h.stale (20 * (k + 1))).drop 8 = own.1 := by
  unfold Checked
  rw [recorded_length sent hops hne]
  constructor
  · rintro ⟨k, hk, he⟩
    cases k with
    | zero =>
      rw [entryAt_recorded_zero] at he
      exact .inl ⟨by omega, (Subtype.ext he).symm⟩
    | succ k =>
      have hg := getElem?_eq_getElem (show k + 1 < hops.length by omega)
      rw [entryAt_recorded_succ sent hg] at he
      exact .inr ⟨k, _, by omega, hg, he⟩
  · rintro (⟨hl, rfl⟩ | ⟨k, h, hk, hg, he⟩)
    · exact ⟨0, by omega, entryAt_recorded_zero sent hops⟩
    · exact ⟨k + 1, by omega, (entryAt_recorded_succ sent hg).trans he⟩

theorem dropped_of_header (h : m.guidPrefix = own) : Dropped own m := by
  intro fp hfp mem src mode
  have hc : (m.arrive mem).guidPrefix = fp.guidPrefix := h.trans hfp.symm
  unfold fwdParse
  simp [if_pos hc, and_self]

theorem dropped_of_checked (hm : m.elements = sourceElement data :: rest) (h : Checked own.1 data) : Dropped own m := by
  intro fp hfp mem src mode
  by_cases hh : m.guidPrefix = own
  · exact dropped_of_header hh fp hfp mem src mode
  have hc : (m.arrive mem).guidPrefix ≠ fp.guidPrefix := fun hc => hh (hc.trans hfp)
  have hl : (m.arrive mem).elements =
      { sourceElement data with behind := mem 0 } :: land (fun i => mem (i + 1)) rest := by
    show land mem m.elements = _
    rw [hm, land]
    rfl
  have hf : ∀ pre, (fwdCheckInfoSource fp { sourceElement data with behind := mem 0 } pre).1 = true :=
    fun pre => (fwdCheckInfoSource_iff fp _ pre).2 (hfp ▸ h)
  -- The InfoSource is the first element, so nothing has been collected when it is met.
  have hel : ∀ handle kind st, parseElement fp true handle kind mode st { sourceElement data with behind := mem 0 } =
      .looped st := by
    intro handle kind st
    show (if (fwdCheckInfoSource fp { sourceElement data with behind := mem 0 } st.srcPrefix).1 = true
      then _ else _) = _
    rw [if_pos (hf _)]
  unfold fwdParse
  simp [hl, parseLoop, hel, and_self]

/-! ## What is not -/

def spdpData : List UInt8 := [0, 0, 0, 0, 0, 0, 0, 0, 0, 1, 0, 0xc2]

def Announcement (e : Element) : Prop := e.hasHeader = true ∧ e.id = .data ∧ e.data = spdpData

def announcement (start : GuidPrefix) : Message :=
  ⟨ownVersion, ownVendor, start, [⟨true, .data, false, false, 12, spdpData, fun _ => 0⟩]⟩

theorem announcement_plain (start : GuidPrefix) : Plain (announcement start) := by
  intro e he
  obtain rfl := mem_singleton.1 he
  rfl

theorem kept_announcement (fp : Forwarder) (mode : Mode) (h : Announcement e) : kept fp mode [e] = [e.swapped] := by
  obtain ⟨hh, hi, -⟩ := h
  have hs : isInfoSource e = false := by simp [isInfoSource, hi]
  have hr : isInfoReply e = false := by simp [isInfoReply, hi]
  have hw : wantsReply e = false := by simp [wantsReply, hi]
  simp [kept, hs, hr, hw]

theorem announcement_passes (start : GuidPrefix) (hops : List Hop) : hops ≠ [] → hops.length ≤ 5 →
    ∃ m e, Run Hop.pass (fun _ _ => True) (announcement start) hops m ∧ Announcement e ∧
      m.elements = [sourceElement (recorded (announcement start) hops), e] := by
  induction hops using reverseRecOn with
  | nil => exact fun h => absurd rfl h
  | append_singleton l h ih =>
    intro _ hlen
    rw [length_append, length_singleton] at hlen
    by_cases hn : l = []
    · subst hn
      have ha : Announcement ⟨true, .data, false, false, 12, spdpData, h.mem 0⟩ := ⟨rfl, rfl, rfl⟩
      refine ⟨_, _, .snoc .nil trivial (h.pass_plain (announcement_plain start)), ha, ?_⟩
      show sourceElement (sourceEntry (announcement start)) ::
        kept h.fp h.mode [⟨true, .data, false, false, 12, spdpData, h.mem 0⟩] = _
      rw [kept_announcement h.fp h.mode ha, recorded, nil_append, tail_cons, staleEntries, append_nil]
      rfl
    · obtain ⟨m, e, hr, hae, hel⟩ := ih hn (by omega)
      have hrl := recorded_length (announcement start) l hn
      have hpass := h.pass_source hel
      rw [if_pos (by omega)] at hpass
      have ha : Announcement { e.swapped with behind := h.mem 1 } := hae
      refine ⟨_, Element.swapped { e.swapped with behind := h.mem 1 }, hr.snoc trivial hpass, ha, ?_⟩
      rw [land, land, kept_announcement h.fp h.mode ha, recorded_snoc _ l h hn, hrl]

def bareForwarder (own : GuidPrefix) : Forwarder where
  guidPrefix := own
  participant := ⟨0, fun _ => none⟩
  participantLookup := fun _ => none
  populateLocators := fun _ p => (p.locs, p.isLocal)
  directReply := fun _ _ _ => none
  replyLocators := fun _ => none
  domainId := 0
  participantId := 0
  dstPrefix := fun _ => none
  stack := []
  peers := []
  dstLocs := []
  metaUcast := []
  metaMcast := []
  defUcast := []
  defMcast := []
  secureLocs := none
  table := fun _ => none

theorem announcement_received (fp : Forwarder) (handle : Nat) (kind : BitVec 32) (mode : Mode)
    (ha : Announcement e) (hg : st.gotDest = false) :
    ∃ st', parseElement fp true handle kind mode st e = .stop st' ∧ st'.localDsts = 1 := by
  obtain ⟨hh, hi, hd⟩ := ha
  have hsrc : e.bytes 8 4 = participantW := by
    rw [e.bytes_inside (by rw [hd]; decide), hd]
    rfl
  unfold parseElement parseEids
  simp only [hh, hi, hg, hsrc, eidOffsets, Bool.not_true, Bool.false_eq_true, reduceCtorEq, false_and, if_false,
    if_true]
  exact ⟨_, rfl, rfl⟩

theorem source_passed (fp : Forwarder) (handle : Nat) (kind : BitVec 32) (mode : Mode) (st : Parse)
    (mem : Nat → UInt8) (hc : ¬ Checked fp.guidPrefix.1 data) :
    ∃ pre, parseElement fp true handle kind mode st { sourceElement data with behind := mem } =
      .more { st with srcPrefix := pre } := by
  have hf : (fwdCheckInfoSource fp { sourceElement data with behind := mem } st.srcPrefix).1 ≠ true :=
    fun hf => hc ((fwdCheckInfoSource_iff fp { sourceElement data with behind := mem } st.srcPrefix).1 hf)
  refine ⟨(fwdCheckInfoSource fp { sourceElement data with behind := mem } st.srcPrefix).2, ?_⟩
  show (if (fwdCheckInfoSource fp { sourceElement data with behind := mem } st.srcPrefix).1 = true then _ else _) = _
  rw [if_neg hf]
  rfl

theorem localDsts_of_loop (hne : msg.guidPrefix ≠ fp.guidPrefix)
    (hl : parseLoop fp true 0 0 mode msg.elements
      ⟨fp.table, msg.guidPrefix.1, none, none, false, false, false, false, [], [], 0⟩ = .ok st) :
    (fwdParse fp msg true none mode).localDsts = st.localDsts := by
  have hc : ¬ ((true : Bool) = true ∧ msg.guidPrefix = fp.guidPrefix) := fun h => hne h.2
  unfold fwdParse
  rw [if_neg hc]
  simp only [Option.map_none, Option.getD_none, Option.any_none, Bool.false_eq_true, if_false, hl]

theorem not_dropped (ha : Announcement e)
    (hm : m.elements = [sourceElement data, e]) (hh : m.guidPrefix ≠ own) (hc : ¬ Checked own.1 data) :
    ¬ Dropped own m := by
  intro hd
  have hel : (m.arrive fun _ _ => 0).elements =
      [{ sourceElement data with behind := fun _ => 0 }, { e.swapped with behind := fun _ => 0 }] := by
    show land _ m.elements = _
    rw [hm]
    rfl
  obtain ⟨pre, hsrc⟩ := source_passed (bareForwarder own) 0 0 .metaMcast
    ⟨fun _ => none, m.guidPrefix.1, none, none, false, false, false, false, [], [], 0⟩ (fun _ => 0) hc
  obtain ⟨st, hst, h1⟩ := announcement_received (bareForwarder own) 0 0 .metaMcast
    (show Announcement { e.swapped with behind := fun _ => 0 } from ha)
    (show Parse.gotDest ⟨fun _ => none, pre, none, none, false, false, false, false, [], [], 0⟩ = false from rfl)
  have hl : parseLoop (bareForwarder own) true 0 0 .metaMcast (m.arrive fun _ _ => 0).elements
      ⟨fun _ => none, m.guidPrefix.1, none, none, false, false, false, false, [], [], 0⟩ = .ok st := by
    rw [hel, parseLoop, hsrc]
    show parseLoop _ _ _ _ _ _ _ = _
    rw [parseLoop, hst]
  have h0 := (hd (bareForwarder own) rfl (fun _ _ => 0) none .metaMcast).2
  rw [localDsts_of_loop hh hl, h1] at h0
  cases h0

/-! ## Messages that have been round -/

theorem Copy.dropped (hc : Copy sent hops m) (h : Recognises sent.guidPrefix hops own) : Dropped own m := by
  rcases h with h | h
  · exact dropped_of_header (hc.header.trans h.symm)
  have hne : hops ≠ [] := by
    rintro rfl
    rcases h with ⟨h, -⟩ | ⟨k, _, h, -⟩ <;> exact absurd h (Nat.not_lt_zero _)
  obtain ⟨-, rest, hel⟩ := hc.later hne
  exact dropped_of_checked hel ((checked_recorded_iff sent hne own).2 h)

def Sends (m : Message) (h : Hop) : Prop :=
  ∃ src, (fwdParse h.fp (m.arrive h.mem) true src h.mode).remote ≠ []

def Recognised (start : GuidPrefix) (hops : List Hop) : Prop :=
  ∀ pre h post, hops = pre ++ h :: post → h.fp.guidPrefix ∈ senders start pre → Recognises start pre h.fp.guidPrefix

theorem Recognised.init (hr : Recognised start (hops ++ [h])) : Recognised start hops := by
  intro pre h' post hsplit
  exact hr pre h' (post ++ [h]) (by rw [hsplit, append_assoc, cons_append])

theorem senders_nodup (hp : Plain sent) (hr : Run Hop.pass Sends sent hops m) :
    Recognised sent.guidPrefix hops → (senders sent.guidPrefix hops).Nodup := by
  refine (hr.invariant (fun hops m => Copy sent hops m ∧
    (Recognised sent.guidPrefix hops → (senders sent.guidPrefix hops).Nodup))
      ⟨.start sent, fun _ => nodup_singleton _⟩ ?_).2
  rintro hops m h m' ⟨hc, hnd⟩ ⟨src, hsend⟩ hm
  refine ⟨hc.pass hp hm, fun hrec => ?_⟩
  have hnew : h.fp.guidPrefix ∉ senders sent.guidPrefix hops := by
    intro hmem
    have hd := hc.dropped (hrec hops h [] rfl hmem)
    exact hsend (hd h.fp rfl h.mem src h.mode).1
  have hsn : senders sent.guidPrefix (hops ++ [h]) = senders sent.guidPrefix hops ++ [h.fp.guidPrefix] := by
    simp [senders]
  rw [hsn, nodup_append]
  refine ⟨hnd hrec.init, nodup_singleton _, ?_⟩
  rintro a ha b hb rfl
  exact hnew (mem_singleton.1 hb ▸ ha)

/-- **A forwarder that has sent a message drops every copy exactly where it is the last sender, or its prefix is in an
entry that is looked at**; where every forwarder can recognise its own so, no copy passes one twice. -/
theorem returning_copy_dropped_iff (start : GuidPrefix) (hops : List Hop) (own : GuidPrefix) :
    ((own ∈ senders start hops → ∀ sent m, sent.guidPrefix = start → Plain sent →
        Run Hop.pass (fun _ _ => True) sent hops m → Dropped own m) ↔
      (own ∈ senders start hops → hops.length ≤ 5 → Recognises start hops own)) ∧
    ∀ sent m, sent.guidPrefix = start → Plain sent → Run Hop.pass Sends sent hops m → Recognised start hops →
      (senders start hops).Nodup := by
  refine ⟨⟨fun hd hown hlen => ?_, fun hrec hown sent m hs hp hr => ?_⟩, ?_⟩
  · by_contra hnr
    have hne : hops ≠ [] := by
      rintro rfl
      exact hnr (.inl (mem_singleton.1 hown))
    have hp := announcement_plain start
    obtain ⟨m, e, hr, hae, hel⟩ := announcement_passes start hops hne hlen
    refine not_dropped hae hel ?_ ?_ (hd hown _ m rfl hp hr)
    · rw [(Copy.of_run hp hr).header]
      exact fun h => hnr (.inl h.symm)
    · intro hch
      exact hnr (.inr ((checked_recorded_iff _ hne own).1 hch))
  · have hc := Copy.of_run hp hr
    have hlen : hops.length ≤ 5 := by
      by_cases hne : hops = []
      · rw [hne]
        exact Nat.zero_le 5
      · exact (hc.later hne).1
    exact hc.dropped (hs ▸ hrec hown hlen)
  · rintro sent m rfl hp hr
    exact senders_nodup hp hr

/-- **Along any path the first five forwarders copy a message within the memory of an element, and a sixth does not.**
-/
theorem in_memory_iff (hp : Plain sent) : (∃ m, Run Hop.pass (fun _ _ => True) sent hops m) ↔ hops.length ≤ 5 := by
  refine ⟨fun ⟨m, hr⟩ => ?_, ?_⟩
  · rcases eq_or_ne hops [] with rfl | hn
    · exact Nat.zero_le 5
    · exact ((Copy.of_run hp hr).later hn).1
  induction hops using reverseRecOn with
  | nil => exact fun _ => ⟨sent, .nil⟩
  | append_singleton l h ih =>
    intro hlen
    rw [length_append, length_singleton] at hlen
    obtain ⟨m, hr⟩ := ih (by omega)
    have hc := Copy.of_run hp hr
    by_cases hn : l = []
    · exact ⟨_, hr.snoc trivial (hc.first hn ▸ h.pass_plain hp)⟩
    · obtain ⟨-, rest, hel⟩ := hc.later hn
      have hpass := h.pass_source hel
      rw [recorded_length sent l hn, if_pos (by omega)] at hpass
      exact ⟨_, hr.snoc trivial hpass⟩

theorem sixth_not_in_memory : ¬ ∃ m, Run Hop.pass (fun _ _ => True) (announcement ⟨replicate 12 1, rfl⟩)
    (replicate 6 ⟨bareForwarder ⟨replicate 12 2, rfl⟩, fun _ _ => 0, .metaMcast⟩) m :=
  mt (in_memory_iff (announcement_plain _)).1 (by decide)

def noAddress : Address := ⟨replicate 16 0, rfl⟩

def openForwarder (own : GuidPrefix) : Forwarder := { bareForwarder own with dstLocs := [⟨4, 7400, noAddress, 0⟩] }

/-- **A participant announcement goes through one forwarder, on to another, and back to the first, which sends it on
once more**: its prefix has been written behind the InfoSource and not into it. -/
theorem announcement_forwarded_twice :
    ∃ (start : GuidPrefix) (first second : Hop) (sent m : Message), sent.guidPrefix = start ∧ Plain sent ∧
      ¬ (senders start [first, second, first]).Nodup ∧
      Run Hop.pass Sends sent [first, second, first] m := by
  refine ⟨⟨replicate 12 1, rfl⟩, ⟨openForwarder ⟨replicate 12 2, rfl⟩, fun _ _ => 0, .metaMcast⟩,
    ⟨openForwarder ⟨replicate 12 3, rfl⟩, fun _ _ => 0, .metaMcast⟩, announcement _, _, rfl, announcement_plain _,
    ?_, .snoc (.snoc (.snoc .nil ⟨none, ?_⟩ rfl) ⟨none, ?_⟩ rfl) ⟨none, ?_⟩ rfl⟩
  all_goals decide

end Qeo.Forward
