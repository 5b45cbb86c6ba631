import Mathlib.Algebra.GroupWithZero.Nat
import QeoCore.ForwardLoop
/-!
# ForwardDests — where a message is sent, and what of it

Destinations are added from INFO_DST, endpoints, builtin peers and SPDP, and always by `fwd_add_locators`.
-/
namespace Qeo.Forward

open List

variable {h : Nat} {k : BitVec 32} {st : Parse} {fp : Forwarder} {learn : Bool} {mode : Mode} {e : Element}

def echoes (handle : Nat) (kind : BitVec 32) (l : Locator) : Bool :=
  (handle != 0 && l.handle == handle) || (kind != 0 && l.kind &&& kind != 0)

def Clean (h : Nat) (k : BitVec 32) (ls : List Locator) : Prop := ls.Nodup ∧ ∀ l ∈ ls, echoes h k l = false

theorem Clean.nil : Clean h k [] := ⟨nodup_nil, nofun⟩

theorem fwdAddLocators_cons (rem ls : List Locator) : fwdAddLocators h k rem (l :: ls) =
    fwdAddLocators h k (if echoes h k l || rem.contains l then rem else rem ++ [l]) ls := rfl

theorem Clean.add : ∀ {rem : List Locator} (ls : List Locator), Clean h k rem → Clean h k (fwdAddLocators h k rem ls)
  | _, [], hc => hc
  | rem, l :: ls, hc => by
    rw [fwdAddLocators_cons]
    refine Clean.add ls ?_
    split
    · exact hc
    rename_i hn
    simp only [Bool.or_eq_true, not_or, Bool.not_eq_true, contains_eq_mem, decide_eq_false_iff_not] at hn
    refine ⟨hc.1.append (nodup_singleton l) (disjoint_singleton.2 hn.2), fun x hx => ?_⟩
    rcases mem_append.1 hx with hx | hx
    · exact hc.2 x hx
    · exact mem_singleton.1 hx ▸ hn.1

/-! ## The loop -/

namespace Parse

def Clean (h : Nat) (k : BitVec 32) (st : Parse) : Prop := Forward.Clean h k st.remUc ∧ Forward.Clean h k st.remMc

theorem Clean.dest (pre : List UInt8) (hc : st.Clean h k) : (fwdAddDest h k mode st pre).Clean h k := by
  unfold fwdAddDest
  split
  · exact hc
  split
  · exact hc
  split
  · exact hc
  extract_lets get mc uc
  split
  · exact hc
  · exact ⟨hc.1.add _, hc.2.add _⟩

theorem Clean.source (add : Bool) (hc : st.Clean h k) : (lookupSource learn add st).Clean h k := by
  unfold lookupSource
  split
  · exact hc
  split
  · exact hc
  split
  · exact hc
  · exact hc

theorem Clean.marked (hc : st.Clean h k) : (markLocal st).Clean h k := by
  unfold markLocal
  split
  · exact hc
  · exact hc

theorem Clean.endpoints (id : SubmsgId) (tp : Topic) (srcEid dstEid : EntityId) (hc : st.Clean h k) :
    (addEndpoints fp h k mode id tp srcEid dstEid st).Clean h k := by
  unfold addEndpoints
  extract_lets eps st1
  have h1 : st1.Clean h k := by
    refine foldlRecOn eps _ hc fun st hc ep _ => ?_
    split_ifs
    · exact hc
    · exact hc.dest ep.guidPrefix
    · exact hc
  split
  · split
    · exact h1
    refine foldlRecOn fp.peers _ h1 fun st hc pp _ => ?_
    split
    · exact hc.dest pp.1
    · exact hc
  · exact h1

end Parse

def Next.state : Next → Parse
  | .more st | .stop st | .looped st => st

theorem parseEids_clean (dstOfs srcOfs : Nat) (hc : st.Clean h k) :
    (parseEids fp learn h k mode st e dstOfs srcOfs).state.Clean h k := by
  unfold parseEids
  extract_lets dstEid srcEid st1 st2 st3 uc
  have h2 : st2.Clean h k := Parse.Clean.source st1.udpSrc hc
  split
  · have h3 : st3.Clean h k := by
      show (if st2.udpSrc then markLocal st2 else st2).Clean h k
      split
      · exact h2.marked
      · exact h2
    exact ⟨h3.1.add _, h3.1.add _⟩
  split
  · exact h2
  split
  · exact h2
  · exact h2.endpoints _ _ _ _

theorem parseElement_clean (e : Element) (hc : st.Clean h k) :
    (parseElement fp learn h k mode st e).state.Clean h k := by
  unfold parseElement
  split_ifs
  · exact hc
  · exact (hc.source false).dest _
  · dsimp only
    split
    · exact hc
    · exact hc
  · exact hc
  · exact hc
  · exact hc
  · exact hc
  · split
    · exact hc
    · exact parseEids_clean _ _ hc

theorem parseLoop_clean : ∀ (l : List Element) {st st' : Parse}, st.Clean h k →
    parseLoop fp learn h k mode l st = .ok st' → st'.Clean h k
  | [], _, _, hc, hl => by
    cases hl
    exact hc
  | e :: l, st, st', hc, hl => by
    have hs : (parseElement fp learn h k mode st e).state.Clean h k := parseElement_clean e hc
    rw [parseLoop] at hl
    split at hl
    · rename_i hn
      rw [hn] at hs
      exact parseLoop_clean l hs hl
    · rename_i hn
      rw [hn] at hs
      cases hl
      exact hs
    · cases hl

/-- **The destinations never lead back to the source.** -/
theorem no_echo (fp : Forwarder) (msg : Message) (learn : Bool) (src : Locator) (mode : Mode) :
    (fwdParse fp msg learn (some src) mode).remote.Nodup ∧
      ∀ l ∈ (fwdParse fp msg learn (some src) mode).remote,
        (src.handle ≠ 0 → l.handle ≠ src.handle) ∧ (src.kind &&& kindsUdp ≠ 0 → l.kind &&& kindsUdp = 0) := by
  have hr : Clean src.handle (if src.kind &&& kindsUdp != 0 then kindsUdp else 0)
      (fwdParse fp msg learn (some src) mode).remote := by
    unfold fwdParse
    extract_lets udp kind st
    show Clean src.handle kind _
    split
    · exact .nil
    split
    · exact .nil
    rename_i hl
    have hc := parseLoop_clean msg.elements ⟨.nil, .nil⟩ hl
    dsimp only
    split
    · exact hc.2
    · exact hc.1
  refine ⟨hr.1, fun l hl => ?_⟩
  have he := hr.2 l hl
  simp only [echoes, Bool.or_eq_false_iff, Bool.and_eq_false_imp, bne_iff_ne, beq_eq_false_iff_ne] at he
  refine ⟨he.1, fun hk => ?_⟩
  rw [if_pos hk] at he
  simpa using he.2 (by decide)

/-! ## What is sent -/

def Element.size (e : Element) : Nat := (if e.hasHeader then 4 else 0) + e.data.length

def Message.size (m : Message) : Nat := 20 + (m.elements.map Element.size).sum

def passedOn (l : List Element) : List Element := l.filter fun e => !isInfoSource e && !isInfoReply e

def sourcesBefore (msg : Message) : List UInt8 := ((msg.elements.find? isInfoSource).map (·.data)).getD []

/-- `new_mp->size` in `rfwd_forward`: what is put in front is added to the size of the message that was received. -/
def recordedSize (fp : Forwarder) (msg : Message) (m : Mode) : Nat :=
  msg.size + (if msg.elements.any wantsReply then (infoReply fp m).size else 0) +
    (infoSourceSize + (sourcesBefore msg).length + 4)

/-- What of an element is sent. -/
def Element.wire (e : Element) : Element := { e with behind := fun _ => 0 }

/-- The submessages that are to be put in front of a message. -/
def added (fp : Forwarder) (msg : Message) (m : Mode) : List Element :=
  submsg .infoSrc false (sourcesBefore msg ++ sourceEntry msg) ::
    if msg.elements.any wantsReply then
      [submsg .infoReply (!(replyLists fp m).2.isEmpty) (replyData (replyLists fp m))]
    else []

/-- The copy of `msg`, which has come to memory that held `mem`, has the contents it should have, and their lengths. -/
def Faithful (fp : Forwarder) (msg : Message) (mem : Nat → Nat → UInt8) (m : Mode) : Prop :=
  ∃ sent, rfwdForward fp (msg.arrive mem) m = some sent ∧
    sent.elements.map Element.wire = added fp msg m ++ (passedOn msg.elements).map Element.wire ∧
    (∀ e ∈ added fp msg m, e.headerLength.toNat = e.data.length) ∧
    recordedSize fp (msg.arrive mem) m = sent.size

/-- What comes in is what was sent, once it is swapped back. -/
theorem land_wire : ∀ (mem : Nat → Nat → UInt8) (l : List Element),
    (land mem l).map (fun e => e.swapped.wire) = l.map Element.wire
  | _, [] => rfl
  | mem, e :: l => by
    have he : Element.wire (Element.swapped { e.swapped with behind := mem 0 }) = e.wire := by
      obtain ⟨_, _, _, swap, n, _, _⟩ := e
      cases swap
      · rfl
      have hn : (n.extractLsb' 0 8 ++ n.extractLsb' 8 8).extractLsb' 0 8 ++
          (n.extractLsb' 0 8 ++ n.extractLsb' 8 8).extractLsb' 8 8 = n := by grind
      simp [Element.swapped, Element.wire, hn]
    rw [land, map_cons, map_cons, he, land_wire]

theorem arrive_passedOn (msg : Message) (mem : Nat → Nat → UInt8) :
    (passedOn (msg.arrive mem).elements).map (fun e => e.swapped.wire) = (passedOn msg.elements).map Element.wire := by
  have hp := congrArg passedOn (land_wire mem msg.elements)
  unfold passedOn at hp
  rwa [filter_map, filter_map] at hp

theorem arrive_any (msg : Message) (mem : Nat → Nat → UInt8) :
    (msg.arrive mem).elements.any wantsReply = msg.elements.any wantsReply := by
  have hp := congrArg (any · wantsReply) (land_wire mem msg.elements)
  rwa [any_map, any_map] at hp

theorem arrive_size (msg : Message) (mem : Nat → Nat → UInt8) : (msg.arrive mem).size = msg.size := by
  have hp := congrArg (map Element.size) (land_wire mem msg.elements)
  rw [map_map, map_map] at hp
  exact congrArg (20 + sum ·) hp

theorem arrive_sources (msg : Message) (mem : Nat → Nat → UInt8) :
    sourcesBefore (msg.arrive mem) = sourcesBefore msg := by
  have hp := congrArg (fun l => ((l.find? isInfoSource).map (·.data)).getD []) (land_wire mem msg.elements)
  rwa [find?_map, find?_map, Option.map_map, Option.map_map] at hp

theorem size_wire (l : List Element) : (l.map Element.wire).map Element.size = l.map Element.size := map_map

theorem replyData_length (lists : List Locator × List Locator) : (replyData lists).length = replySize lists := by
  have hl : ∀ ls : List Locator, (rfwdAddInfoReplyLocators ls).length = 4 + ls.length * msgLocatorSize := by
    intro ls
    have hc : ∀ l ∈ ls, (word32 l.kind ++ word32 l.port ++ l.address.1).length = msgLocatorSize := fun l _ => by
      simp [word32, l.address.2, msgLocatorSize]
    rw [rfwdAddInfoReplyLocators, length_append, length_flatMap, map_congr_left hc, map_const', sum_replicate_nat]
    rfl
  rw [replyData, replySize, length_append, hl]
  split
  · rfl
  · rw [hl]

theorem infoReply_eq (h : replySize (replyLists fp mode) < 2 ^ 16) : infoReply fp mode =
    submsg .infoReply (!(replyLists fp mode).2.isEmpty) (replyData (replyLists fp mode)) := by
  rw [← replyData_length] at h
  rw [infoReply, ← replyData_length, newSubmsg_eq _ _ _ h]

theorem size_passedOn : ∀ l : List Element, ((passedOn l).map Element.size).sum ≤ (l.map Element.size).sum ∧
    (((passedOn l).map Element.size).sum = (l.map Element.size).sum → ∀ e ∈ l, !isInfoSource e && !isInfoReply e)
  | [] => by simp [passedOn]
  | e :: l => by
    obtain ⟨hle, heq⟩ := size_passedOn l
    unfold passedOn at hle heq ⊢
    cases hk : !isInfoSource e && !isInfoReply e with
    | true =>
      simp only [filter_cons, hk, if_true, map_cons, sum_cons, forall_mem_cons]
      exact ⟨by omega, fun h => ⟨trivial, heq (by omega)⟩⟩
    | false =>
      have hs : 0 < e.size := by
        cases hh : e.hasHeader
        · simp [isInfoSource, isInfoReply, hh] at hk
        · simp only [Element.size, hh, if_true]
          omega
      simp only [filter_cons, hk, Bool.false_eq_true, if_false, map_cons, sum_cons]
      exact ⟨by omega, by omega⟩

/-- What fits the length of a submessage. -/
def ReplyFits (fp : Forwarder) (msg : Message) (m : Mode) : Prop :=
  msg.elements.any wantsReply = true → replySize (replyLists fp m) < 2 ^ 16

theorem recordedSize_arrive {m : Mode} (hfit : ReplyFits fp msg m) (mem : Nat → Nat → UInt8) :
    recordedSize fp (msg.arrive mem) m = ((added fp msg m).map Element.size).sum + msg.size := by
  rw [recordedSize, arrive_size, arrive_any, arrive_sources, added]
  split
  · rename_i hw
    simp only [infoReply_eq (hfit hw), submsg, Element.size, map_cons, map_nil, sum_cons, sum_nil, if_true,
      length_append, sourceEntry_length, infoSourceSize]
    omega
  · simp only [submsg, Element.size, map_cons, map_nil, sum_cons, sum_nil, if_true, length_append, sourceEntry_length,
      infoSourceSize]
    omega

/-- **A message is forwarded with its contents and lengths exactly if it has not been forwarded before and brings no
InfoReply**, and the locators of the forwarder fit one submessage if it gets one. -/
theorem faithful_iff (fp : Forwarder) (msg : Message) (mem : Nat → Nat → UInt8) (m : Mode) :
    Faithful fp msg mem m ↔ (∀ e ∈ msg.elements, !isInfoSource e && !isInfoReply e) ∧ ReplyFits fp msg m := by
  have hlen := sourceEntry_length msg
  have hrep := replyData_length (replyLists fp m)
  constructor
  · rintro ⟨sent, -, hel, hhead, hsize⟩
    have hfit : ReplyFits fp msg m := by
      intro hw
      have hl := hhead (submsg .infoReply _ _) (by
        rw [added, if_pos hw]
        exact mem_cons_of_mem _ mem_cons_self)
      simp only [submsg, BitVec.toNat_ofNat, hrep] at hl
      omega
    refine ⟨(size_passedOn msg.elements).2 ?_, hfit⟩
    have hsum := congrArg (fun l => (l.map Element.size).sum) hel
    simp only [size_wire, map_append, sum_append] at hsum
    rw [recordedSize_arrive hfit, Message.size, Message.size, hsum] at hsize
    omega
  rintro ⟨h, hfit⟩
  have hp : passedOn msg.elements = msg.elements := filter_eq_self.2 h
  have hplain : ∀ e ∈ msg.elements, isInfoSource e = false := fun e he => by
    simpa using (Bool.and_eq_true_iff.1 (h e he)).1
  have hs : sourcesBefore msg = [] := by
    rw [sourcesBefore, find?_eq_none.2 fun e he => by simp [hplain e he]]
    rfl
  have hany : (passedOn (msg.arrive mem).elements).any wantsReply = msg.elements.any wantsReply := by
    have ha := congrArg (any · wantsReply) (arrive_passedOn msg mem)
    rwa [any_map, any_map, hp] at ha
  have hsize : ((passedOn (msg.arrive mem).elements).map Element.size).sum = (msg.elements.map Element.size).sum := by
    have ha := congrArg (fun l => (l.map Element.size).sum) (arrive_passedOn msg mem)
    rwa [map_map, map_map, hp] at ha
  have hsent : rfwdForward fp (msg.arrive mem) m = some ⟨ownVersion, ownVendor, fp.guidPrefix,
      added fp msg m ++ (passedOn (msg.arrive mem).elements).map Element.swapped⟩ := by
    unfold rfwdForward added
    rw [show (msg.arrive mem).elements.find? isInfoSource = none from land_plain mem msg.elements hplain, hs,
      nil_append, ← newSubmsg_eq _ _ (sourceEntry msg) (by omega), hlen]
    change some (Message.mk _ _ _ (_ :: if (passedOn (msg.arrive mem).elements).any wantsReply then _ else _)) = _
    rw [hany]
    split
    · rename_i hw
      rw [infoReply_eq (hfit hw)]
      rfl
    · rfl
  refine ⟨_, hsent, ?_, ?_, ?_⟩
  · rw [map_append, map_map]
    refine congrArg₂ (· ++ ·) ?_ (arrive_passedOn msg mem)
    unfold added
    split <;> rfl
  · rw [added, hs, nil_append, forall_mem_cons]
    refine ⟨by simp [submsg, hlen], fun e he => ?_⟩
    split at he
    · rename_i hw
      have hlt := hfit hw
      rw [mem_singleton.1 he, submsg, hrep, BitVec.toNat_ofNat, Nat.mod_eq_of_lt hlt]
    · exact absurd he not_mem_nil
  · rw [recordedSize_arrive hfit, Message.size, Message.size, map_append, sum_append, map_map,
      show Element.size ∘ Element.swapped = Element.size from rfl, hsize]
    omega

def secondHop : Message := ⟨ownVersion, ownVendor, ⟨replicate 12 2, rfl⟩,
  [submsg .infoSrc false (replicate 20 1), submsg .data false (replicate 20 7)]⟩

/-- **A second forwarder** drops the InfoSource and still counts it, and sends the memory behind it for the sender. -/
theorem not_faithful : ¬ Faithful (bareForwarder ⟨replicate 12 3, rfl⟩) secondHop (fun _ _ => 0) .userUcast ∧
    recordedSize (bareForwarder ⟨replicate 12 3, rfl⟩) secondHop .userUcast = 112 ∧
    ∃ sent, rfwdForward (bareForwarder ⟨replicate 12 3, rfl⟩) secondHop .userUcast = some sent ∧ sent.size = 88 ∧
      sent.elements.head?.map (·.data) = some (replicate 20 1 ++ replicate 20 0) := by
  refine ⟨?_, rfl, _, rfl, rfl, rfl⟩
  rintro ⟨sent, hs, -, -, hsize⟩
  cases hs
  exact absurd hsize (by decide)

/-! ## Closing a domain -/

structure FTTable where
  entries : Table
  users : Nat
  /-- The age timer is running. -/
  ageing : Bool

def FTTable.ftCleanup (tp : FTTable) (id : Nat) : Option FTTable :=
  if tp.users = 1 then none else some ⟨cleanEntries id tp.entries, tp.users - 1, false⟩

/-- The table without the participants of a domain. -/
def others (id : Nat) (t : Table) : Table := fun pre => (t pre).filter (·.id != id)

/-- Every message of a remaining domain goes where it went before, but for the participants of `d`, and entries go on to
age. -/
def Undisturbed (d : Nat) (tp tp' : FTTable) : Prop :=
  tp'.ageing = tp.ageing ∧ ∀ (fp : Forwarder) (msg : Message) (learn : Bool) (src : Option Locator) (m : Mode),
    let dests (t : Table) := fwdParse { fp with table := t } msg learn src m
    (dests tp'.entries).remote = (dests (others d tp.entries)).remote ∧
      (dests tp'.entries).localDsts = (dests (others d tp.entries)).localDsts

def infoDst (pre : GuidPrefix) : Element := submsg .infoDst false pre.1

theorem parseElement_infoDst (pre : GuidPrefix) (st : Parse) : parseElement fp learn h k mode st (infoDst pre) =
    .more { fwdAddDest h k mode (lookupSource learn false st) pre.1 with gotDest := true } := by
  have hb : (infoDst pre).bytes 0 12 = pre.1 := by
    rw [Element.bytes_inside _ (Nat.le_of_eq pre.2.symm)]
    exact take_of_length_le (Nat.le_of_eq pre.2)
  rw [← hb]
  rfl

def directed (pre : GuidPrefix) : Message := ⟨ownVersion, ownVendor, pre, [infoDst pre]⟩

theorem fwdAddDest_local (hp : (st.table pre).all (·.id != 0)) :
    (fwdAddDest h k mode st pre).localDsts = st.localDsts + if (st.table pre).isSome then 1 else 0 := by
  unfold fwdAddDest
  cases ht : st.table pre with
  | none => rfl
  | some p =>
    rw [ht] at hp
    dsimp only
    rw [if_pos (by simpa using hp)]
    rfl

theorem directed_local (fp : Forwarder) (pre : GuidPrefix) (hp : (fp.table pre.1).all (·.id != 0)) :
    (fwdParse fp (directed pre) false none .userUcast).localDsts = if (fp.table pre.1).isSome then 1 else 0 := by
  rw [fwdParse, if_neg (by simp)]
  simp only [directed, parseLoop, parseElement_infoDst]
  rw [fwdAddDest_local hp]
  exact Nat.zero_add _

/-- A forwarder that knows every participant, with the locator `l`, and a message that a participant sends to itself. -/
def probe (own : GuidPrefix) (l : Locator) (t : Table) : Forwarder :=
  { bareForwarder own with
    participantLookup := fun _ => some ⟨0, fun _ => none⟩
    populateLocators := fun _ _ => (fun _ _ => [l], false)
    replyLocators := fun _ => some ([], [])
    table := t }

def emptyReply : Element := submsg .infoReply false (replicate 4 0)

def toItself (pre : GuidPrefix) : Message := ⟨ownVersion, ownVendor, pre, [emptyReply, infoDst pre]⟩

/-- Where `toItself` goes with what was learned from it. -/
def ownDests (m : Mode) (pre : List UInt8) (known : Table × Option Participant) : List Locator :=
  let st := ⟨known.1, pre, known.2, none, false, false, true, false, [], [], 0⟩
  let st := fwdAddDest 0 0 m (lookupSource true false st) pre
  if st.remUc.isEmpty then st.remMc else st.remUc

theorem toItself_remote (hne : pre ≠ fp.guidPrefix) (m : Mode) : (fwdParse fp (toItself pre) true none m).remote =
    ownDests m pre.1 (fwdLearnInfoReply fp emptyReply pre.1 m fp.table none) := by
  rw [fwdParse, if_neg fun h => hne h.2]
  have he (st : Parse) : parseElement fp true 0 0 m st emptyReply =
    .more { st with
      table := (fwdLearnInfoReply fp emptyReply st.srcPrefix m st.table st.srcP).1
      srcP := (fwdLearnInfoReply fp emptyReply st.srcPrefix m st.table st.srcP).2
      learned := true, udpSrc := false, asLocal := false } := rfl
  simp only [toItself, parseLoop, parseElement_infoDst]
  erw [he]
  rfl

theorem fwdParticipantLookup_probe (pre : List UInt8) :
    fwdParticipantLookup (probe own l t) pre = some ⟨0, fun _ => none⟩ := ite_id _

theorem probe_new (hown : pre ≠ own) (ht : t pre.1 = none) :
    (fwdParse (probe own l t) (toItself pre) true none .userUcast).remote = [l] := by
  have hl : fwdLearnInfoReply (probe own l t) emptyReply pre.1 .userUcast t none =
      (put t pre.1 { ftAdd 0 true with infoReply := true, locs := fun _ _ => [l] }, some ⟨0, fun _ => none⟩) := by
    unfold fwdLearnInfoReply
    rw [ht, fwdParticipantLookup_probe]
    simp [probe, newEntry, fwdPopulateLocators, ftAdd]
  rw [toItself_remote hown]
  erw [hl]
  simp [ownDests, lookupSource, fwdAddDest, put, ftAdd, ftGetLocators, fwdAddLocators]

theorem probe_known (l' : Locator) (hown : pre ≠ own) (ht : t pre.1 = some p) :
    (fwdParse (probe own l t) (toItself pre) true none .userUcast).remote =
      (fwdParse (probe own l' t) (toItself pre) true none .userUcast).remote := by
  rw [toItself_remote hown, toItself_remote hown]
  refine congrArg (ownDests _ _) ?_
  simp only [fwdLearnInfoReply, fwdParticipantLookup_probe]
  rw [show (probe own l t).table pre.1 = some p from ht, show (probe own l' t).table pre.1 = some p from ht]
  rfl

def nearby : Locator := ⟨1, 7400, noAddress, 0⟩

/-- **Closing a domain leaves the others alone exactly if nothing has been learned, no entry is linked to one of the
domain, and ageing has ended before.** -/
theorem undisturbed_iff (hk : ∀ pre, (tp.entries pre).isSome → pre.length = 12) (h : tp.ftCleanup d = some tp') :
    Undisturbed d tp tp' ↔ tp.ageing = false ∧ ∀ pre p, tp.entries pre = some p → p.id ≠ d →
      p.id ≠ 0 ∧ (p.parent.bind tp.entries).all (stays d) = true := by
  obtain ⟨hage, hent⟩ : tp'.ageing = false ∧ tp'.entries = cleanEntries d tp.entries := by
    unfold FTTable.ftCleanup at h
    split at h <;> cases h
    exact ⟨rfl, rfl⟩
  unfold Undisturbed
  rw [hage, eq_comm]
  refine and_congr_right fun _ => ⟨fun hall pre p hp hid => ?_, fun hc => ?_⟩
  · by_contra hn
    let q : GuidPrefix := ⟨pre, hk pre (by simp [hp])⟩
    have hbefore : others d tp.entries q.1 = some p := by simp [others, q, hp, hid]
    have hafter : tp'.entries q.1 = none := by
      rw [hent, cleanEntries, Option.filter_eq_none_iff]
      intro p' hp'
      obtain rfl := Option.some.inj (hp.symm.trans hp')
      simpa [stays, hid] using hn
    by_cases h0 : p.id = 0
    · obtain ⟨own, hown⟩ : ∃ own : GuidPrefix, q ≠ own := by
        by_cases hq : q = ⟨replicate 12 0, rfl⟩
        · exact ⟨⟨replicate 12 1, rfl⟩, by rw [hq]; decide⟩
        · exact ⟨_, hq⟩
      have hl (l : Locator) :
        [l] = (fwdParse (probe own l (others d tp.entries)) (toItself q) true none .userUcast).remote :=
        (probe_new hown hafter).symm.trans (hall (probe own l tp.entries) (toItself q) true none .userUcast).1
      have hsame := (hl nearby).trans ((probe_known { nearby with port := 0 } hown hbefore).trans (hl _).symm)
      exact absurd hsame (by decide)
    · have hd := (hall (bareForwarder q) (directed q) false none .userUcast).2
      dsimp only at hd
      rw [directed_local _ q (by simp [hafter]), directed_local _ q (by simp [hbefore, h0])] at hd
      simp [hafter, hbefore] at hd
  · have heq : tp'.entries = others d tp.entries := by
      rw [hent]
      funext pre
      unfold cleanEntries others
      cases hp : tp.entries pre with
      | none => rfl
      | some p =>
        rw [Option.filter_some, Option.filter_some]
        by_cases hid : p.id = d
        · simp [stays, hid]
        · simp [stays, hid, hc pre p hp hid]
    simp [heq]

def unlearnt : FTTable := ⟨put (fun _ => none) (replicate 12 1) (ftAdd 2 false), 2, false⟩

theorem undisturbed_unlearnt : ∃ tp', unlearnt.ftCleanup 1 = some tp' ∧ Undisturbed 1 unlearnt tp' := by
  have hother {pre : List UInt8} (hp : pre ≠ replicate 12 1) : unlearnt.entries pre = none := if_neg hp
  refine ⟨_, rfl, (undisturbed_iff (fun pre h => ?_) rfl).2 ⟨rfl, fun pre p hp _ => ?_⟩⟩
  · by_cases hp : pre = replicate 12 1
    · rw [hp]
      rfl
    · rw [hother hp] at h
      cases h
  · by_cases hpre : pre = replicate 12 1
    · subst hpre
      cases hp
      exact ⟨by decide, rfl⟩
    · rw [hother hpre] at hp
      cases hp

def learnt : FTTable := ⟨fun _ => some { ftAdd 0 true with locs := fun _ _ => [nearby] }, 2, true⟩

/-- **Another domain's peer is lost**, and the timer of both is stopped. -/
theorem not_undisturbed : ∃ tp', learnt.ftCleanup 1 = some tp' ∧ tp'.ageing = false ∧
    (fwdParse { bareForwarder ⟨replicate 12 3, rfl⟩ with table := learnt.entries }
    (directed ⟨replicate 12 1, rfl⟩) false
      none .userUcast).remote = [nearby] ∧
    (fwdParse { bareForwarder ⟨replicate 12 3, rfl⟩ with table := tp'.entries } (directed ⟨replicate 12 1, rfl⟩) false
      none .userUcast).remote = [] :=
  ⟨_, rfl, rfl, rfl, rfl⟩

end Qeo.Forward
