import QeoCore.Trace
/-!
# Forward — messages handed on between participants (rtps_fwd.c)

`fwd_parse` works out where a message has to go: to the locators of other participants, to this host, or nowhere.
`rfwd_forward` sends a copy under the forwarder's own GUID prefix, with an InfoSource submessage in front that is to
name the senders the copy has had.

The memory of a received element is part of the model: the code reads and writes behind the data of an InfoSource.
-/
namespace Qeo.Forward

abbrev GuidPrefix := {b : List UInt8 // b.length = 12}

abbrev EntityId := List UInt8

/-- `MAX_ELEMENT_DATA` where pointers have 64 bits. -/
def maxElementData : Nat := 128

def infoSourceSize : Nat := 20

inductive SubmsgId where
  | pad | acknack | heartbeat | gap | infoTs | infoSrc | infoReplyIp4 | infoDst | infoReply | nackFrag
  | heartbeatFrag | data | dataFrag | secure
  deriving DecidableEq

abbrev Address := {b : List UInt8 // b.length = 16}

/-- `Locator_t`: `kind` is a mask, `handle` the connection it belongs to, or 0. -/
structure Locator where
  kind : BitVec 32
  port : BitVec 32
  address : Address
  handle : Nat
  deriving DecidableEq

def kindsUdp : BitVec 32 := 3

inductive Mode where
  | metaMcast | metaUcast | userMcast | userUcast
  deriving DecidableEq

def Mode.mcast : Mode → Mode
  | .metaMcast | .metaUcast => .metaMcast
  | .userMcast | .userUcast => .userMcast

def Mode.ucast : Mode → Mode
  | .metaMcast | .metaUcast => .metaUcast
  | .userMcast | .userUcast => .userUcast

/-! ## Messages -/

/-- `RME`: an element of a message.  One without `RME_HEADER` continues the submessage before it.  `swap` says that the
submessage is in the other byte order, `headerLength` is the length in its header.  `behind` is what the memory at the
receiver holds from the start of the data on, where the data itself has ended. -/
structure Element where
  hasHeader : Bool
  id : SubmsgId
  multicast : Bool
  swap : Bool
  headerLength : BitVec 16
  data : List UInt8
  behind : Nat → UInt8

/-- With the length in the header from the order of the sender to that of the CPU, or back. -/
def Element.swapped (e : Element) : Element :=
  { e with
    headerLength :=
      if e.swap then e.headerLength.extractLsb' 0 8 ++ e.headerLength.extractLsb' 8 8 else e.headerLength }

def Element.byte (e : Element) (i : Nat) : UInt8 := e.data.getD i (e.behind i)

def Element.bytes (e : Element) (ofs len : Nat) : List UInt8 := (List.range len).map fun i => e.byte (ofs + i)

/-- A received message. -/
structure Message where
  version : UInt8 × UInt8
  vendor : UInt8 × UInt8
  guidPrefix : GuidPrefix
  elements : List Element

def land : (Nat → Nat → UInt8) → List Element → List Element
  | _, [] => []
  | mem, e :: l => { e.swapped with behind := mem 0 } :: land (fun i => mem (i + 1)) l

def Message.arrive (m : Message) (mem : Nat → Nat → UInt8) : Message := { m with elements := land mem m.elements }

/-! ## What a forwarder knows -/

/-- An entry of the table, with its flags `LTF_AGE` and `LTF_INFO_REPLY`. -/
structure FTEntry where
  id : Nat
  isLocal : Bool
  locs : Mode → Bool → List Locator
  parent : Option (List UInt8)
  age : Bool
  infoReply : Bool
  ttl : Nat

abbrev Table := List UInt8 → Option FTEntry

def put (t : Table) (pre : List UInt8) (p : FTEntry) : Table := fun q => if q = pre then some p else t q

structure TopicEndpoint where
  entityId : EntityId
  isLocal : Bool
  guidPrefix : List UInt8

structure Topic where
  writers : List TopicEndpoint
  readers : List TopicEndpoint

structure Participant where
  builtins : Nat
  endpoints : EntityId → Option Topic

/-- What learning asks of others: the participants known, the locators an entry gets from one and whether it is local,
the locator to reply to, the lists of unicast and multicast locators of a valid InfoReply, and the peers of connections.
`stack` is what `prefix` of `meta_mcast_learn` holds before it is set. -/
structure Learning where
  participantLookup : List UInt8 → Option Participant
  populateLocators : Participant → FTEntry → (Mode → Bool → List Locator) × Bool
  directReply : FTEntry → Mode → Locator → Option Locator
  replyLocators : Element → Option (List Locator × List Locator)
  domainId : UInt8
  participantId : UInt8
  dstPrefix : Nat → Option (List UInt8)
  stack : List UInt8

/-- `FwdData_t` with the domain. -/
structure Forwarder extends Learning where
  guidPrefix : GuidPrefix
  participant : Participant
  peers : List (List UInt8 × Participant)
  dstLocs : List Locator
  metaUcast : List Locator
  metaMcast : List Locator
  defUcast : List Locator
  defMcast : List Locator
  secureLocs : Option (List Locator)
  table : Table

def builtinEids : List EntityId :=
  [[0, 1, 0, 0xc2], [0, 1, 0, 0xc7], [0, 0, 3, 0xc2], [0, 0, 3, 0xc7], [0, 0, 4, 0xc2], [0, 0, 4, 0xc7],
   [0, 0, 0, 0], [0, 0, 0, 0], [0, 0, 0, 0], [0, 0, 0, 0],
   [0, 2, 0, 0xc2], [0, 2, 0, 0xc7], [0, 0, 2, 0xc2], [0, 0, 2, 0xc7], [0, 2, 1, 0xc3], [0, 2, 1, 0xc4],
   [0xff, 0, 3, 0xc2], [0xff, 0, 3, 0xc7], [0xff, 0, 4, 0xc2], [0xff, 0, 4, 0xc7], [0xff, 2, 0, 0xc2],
   [0xff, 2, 0, 0xc7], [0xff, 2, 2, 0xc3], [0xff, 2, 2, 0xc4], [0xff, 4, 1, 0xc2], [0xff, 4, 1, 0xc7]]

def participantW : EntityId := [0, 1, 0, 0xc2]

/-- An entry behind another one is reached through that one. -/
def ftGetLocators (t : Table) (p : FTEntry) (m : Mode) (reply : Bool) : List Locator :=
  match p.parent.bind t with
  | some q => q.locs m reply
  | none => p.locs m reply

def fwdParticipantLookup (fp : Forwarder) (pre : List UInt8) : Option Participant :=
  if fp.guidPrefix.1 = pre then some fp.participant else fp.participantLookup pre

/-! ## Learning -/

def maxFwdTtl : Nat := 200

def kindsTcp : BitVec 32 := 12

/-- The entry that `ft_add` makes. -/
def ftAdd (id : Nat) (age : Bool) : FTEntry where
  id := id
  isLocal := false
  locs _ _ := []
  parent := none
  age := age
  infoReply := false
  ttl := maxFwdTtl

def fwdPopulateLocators (env : Learning) (p : FTEntry) (pp : Participant) : FTEntry :=
  { p with locs := (env.populateLocators pp p).1, isLocal := (env.populateLocators pp p).2 }

def newEntry (env : Learning) (pp : Option Participant) : FTEntry :=
  pp.elim (ftAdd 0 true) (fwdPopulateLocators env (ftAdd 0 true))

def fwdLearnInfoReply (fp : Forwarder) (e : Element) (pre : List UInt8) (mode : Mode) (t : Table)
    (srcP : Option Participant) : Table × Option Participant :=
  match fp.replyLocators e with
  | none => (t, srcP)
  | some (uc, mc) =>
    let pp := srcP.or (fwdParticipantLookup fp pre)
    let p := (t pre).getD (newEntry fp.toLearning pp)
    if p.parent.isSome then (t, pp)
    else
      let locs (m : Mode) (r : Bool) : List Locator :=
        if r ∧ m = mode.mcast ∧ mc ≠ [] then mc else if r ∧ m = mode.ucast ∧ uc ≠ [] then uc else p.locs m r
      (put t pre { p with infoReply := true, locs := locs }, pp)

def guidFinalize (gp : List UInt8) (domainId pid : UInt8) : List UInt8 := ((gp.set 4 domainId).set 5 pid).set 11 0

/-- `rtps_tcp_peer`: the result, which is 0 if there is a connection, and the prefix. -/
def rtpsTcpPeer (env : Learning) (handle : Nat) : Nat × List UInt8 :=
  match env.dstPrefix handle with
  | some dst => (0, guidFinalize dst env.domainId env.participantId)
  | none => (9, env.stack)

def metaMcastLearn (env : Learning) (t : Table) (pre : List UInt8) (p : FTEntry) (src : Locator) : Table :=
  let peer := rtpsTcpPeer env src.handle
  if src.kind &&& kindsTcp = 0 ∨ peer.1 = 0 ∨ pre.take 11 = peer.2.take 11 then t
  else if (t peer.2).isNone then t
  else put t pre { p with parent := some peer.2 }

def fwdLearnSource (env : Learning) (pre : List UInt8) (pp : Option Participant) (mode : Mode) (src : Locator)
    (t : Table) : Table :=
  let pp := pp.or (env.participantLookup pre)
  let p := { (t pre).getD (newEntry env pp) with ttl := maxFwdTtl }
  if (t pre).isSome && (p.parent.isSome || p.infoReply) then put t pre p
  else match pp.bind fun _ => env.directReply p mode src with
    | some np => put t pre { p with locs := fun m r => if m = mode ∧ r = true then [np] else p.locs m r }
    | none => if mode = .metaMcast && (t pre).isNone then metaMcastLearn env (put t pre p) pre p src else put t pre p

/-! ## Removing entries -/

def ftDelete (t : Table) (pre : List UInt8) : Table := fun q =>
  if q = pre then none else (t q).filter (·.parent ≠ some pre)

/-- Neither of the domain nor without one, as all are that were learned. -/
def stays (id : Nat) (p : FTEntry) : Bool := p.id != id && p.id != 0

/-- What `ft_cleanup` leaves: the children of an entry go with it. -/
def cleanEntries (id : Nat) (t : Table) : Table := fun pre =>
  (t pre).filter fun p => stays id p && (p.parent.bind t).all (stays id)

/-! ## fwd_parse -/

/-- Adds locators other than that of the source, each once. -/
def fwdAddLocators (handle : Nat) (kind : BitVec 32) (rem list : List Locator) : List Locator :=
  list.foldl (fun rem lp =>
    if (handle != 0 && lp.handle == handle) || (kind != 0 && lp.kind &&& kind != 0) || rem.contains lp then rem
    else rem ++ [lp]) rem

/-- The variables of `fwd_parse`. -/
structure Parse where
  table : Table
  srcPrefix : List UInt8
  srcP : Option Participant
  /-- The table entry of the source, once looked up. -/
  p : Option (List UInt8)
  udpSrc : Bool
  asLocal : Bool
  learned : Bool
  gotDest : Bool
  remUc : List Locator
  remMc : List Locator
  localDsts : Nat

def fwdAddDest (handle : Nat) (kind : BitVec 32) (mode : Mode) (st : Parse) (pre : List UInt8) : Parse :=
  match st.table pre with
  | none => st
  | some p =>
    if p.id != 0 then { st with localDsts := st.localDsts + 1 }
    else if st.asLocal && p.isLocal then st
    else
      let get (m : Mode) : List Locator :=
        if (ftGetLocators st.table p m true).isEmpty then ftGetLocators st.table p m false
        else ftGetLocators st.table p m true
      let mc := get mode.mcast
      let uc := get mode.ucast
      if uc.isEmpty && mc.isEmpty then st
      else
        { st with
          remUc := fwdAddLocators handle kind st.remUc (if uc.isEmpty then mc else uc)
          remMc := fwdAddLocators handle kind st.remMc (if mc.isEmpty then uc else mc) }

/-- Is this forwarder in the path? -/
def checkEntries (own : List UInt8) (e : Element) : Nat → Nat → Bool
  | 0, _ => false
  | fuel + 1, ofs =>
    if ofs + infoSourceSize < e.data.length then
      if own = e.bytes (ofs + 8) 12 then true else checkEntries own e fuel (ofs + infoSourceSize)
    else false

def fwdCheckInfoSource (fp : Forwarder) (e : Element) (pre : List UInt8) : Bool × List UInt8 :=
  (checkEntries fp.guidPrefix.1 e e.data.length 0, if infoSourceSize < e.data.length then e.bytes 8 12 else pre)

def lookupSource (learn add : Bool) (st : Parse) : Parse :=
  if !learn || st.p.isSome then st
  else match st.table st.srcPrefix with
    | some p => { st with p := some st.srcPrefix, asLocal := p.isLocal }
    | none =>
      if add then
        { st with p := some st.srcPrefix, table := put st.table st.srcPrefix { ftAdd 0 true with isLocal := true } }
      else st

def markLocal (st : Parse) : Parse :=
  match st.p with
  | none => st
  | some pre => { st with
      table := fun q => if q = pre then (st.table q).map ({ · with isLocal := true }) else st.table q }

def eidOffsets : SubmsgId → Option (Nat × Nat)
  | .data | .dataFrag => some (4, 8)
  | .acknack | .nackFrag => some (4, 0)
  | .heartbeat | .gap | .heartbeatFrag => some (0, 4)
  | _ => none

def addEndpoints (fp : Forwarder) (handle : Nat) (kind : BitVec 32) (mode : Mode) (id : SubmsgId) (tp : Topic)
    (srcEid dstEid : EntityId) (st : Parse) : Parse :=
  let eps := if id = .acknack ∨ id = .nackFrag then tp.writers else tp.readers
  let st := eps.foldl (fun st ep =>
    if dstEid = [0, 0, 0, 0] ∨ dstEid = ep.entityId then
      if ep.isLocal then { st with localDsts := 1 } else fwdAddDest handle kind mode st ep.guidPrefix
    else st) st
  if srcEid.getD 3 0 &&& 0xc0 = 0xc0 then
    match builtinEids.findIdx? (· = srcEid) with
    | none => st
    | some b => fp.peers.foldl (fun st pp =>
        if pp.2.builtins.testBit b then fwdAddDest handle kind mode st pp.1 else st) st
  else st

/-- How the body of a loop ends: on to the next element, out of the loop, or out of the function with nothing. -/
inductive Next where
  | more (st : Parse)
  | stop (st : Parse)
  | looped (st : Parse)

def parseEids (fp : Forwarder) (learn : Bool) (handle : Nat) (kind : BitVec 32) (mode : Mode) (st : Parse)
    (e : Element) (dstOfs srcOfs : Nat) : Next :=
  let dstEid := e.bytes dstOfs 4
  let srcEid := e.bytes srcOfs 4
  let st := { st with srcP := st.srcP.orElse fun _ => fwdParticipantLookup fp st.srcPrefix }
  let st := lookupSource learn st.udpSrc st
  if srcEid = participantW then
    let st := if st.udpSrc then markLocal st else st
    let uc := fwdAddLocators handle kind st.remUc fp.dstLocs
    .stop { st with localDsts := 1, remUc := uc, remMc := uc }
  else match st.srcP with
    -- An unknown source: probably discovery data, so it is just received.
    | none => .more { st with localDsts := 1 }
    | some sp => match sp.endpoints srcEid with
      | none => .more st
      | some tp => .more (addEndpoints fp handle kind mode e.id tp srcEid dstEid st)

def parseElement (fp : Forwarder) (learn : Bool) (handle : Nat) (kind : BitVec 32) (mode : Mode) (st : Parse)
    (e : Element) : Next :=
  if !e.hasHeader then .more st
  else if e.id = .infoDst then
    .more { fwdAddDest handle kind mode (lookupSource learn false st) (e.bytes 0 12) with gotDest := true }
  else if e.id = .infoSrc then
    if learn then
      let (found, pre) := fwdCheckInfoSource fp e st.srcPrefix
      if found then .looped st else .more { st with srcPrefix := pre }
    else .more st
  else if e.id = .infoReply ∧ learn then
    let (table, srcP) := fwdLearnInfoReply fp e st.srcPrefix mode st.table st.srcP
    .more { st with table, srcP, learned := true, udpSrc := false, asLocal := false }
  else if st.gotDest then
    if learn && !st.learned then .more st else .stop st
  else match eidOffsets e.id with
    | none => .more st
    | some (dstOfs, srcOfs) => parseEids fp learn handle kind mode st e dstOfs srcOfs

def parseLoop (fp : Forwarder) (learn : Bool) (handle : Nat) (kind : BitVec 32) (mode : Mode) :
    List Element → Parse → Except Table Parse
  | [], st => .ok st
  | e :: l, st =>
    match parseElement fp learn handle kind mode st e with
    | .more st => parseLoop fp learn handle kind mode l st
    | .stop st => .ok st
    | .looped st => .error st.table

structure Dests where
  remote : List Locator
  localDsts : Nat
  table : Table

def fwdParse (fp : Forwarder) (msg : Message) (learn : Bool) (src : Option Locator) (mode : Mode) : Dests :=
  let udp := src.any fun s => s.kind &&& kindsUdp != 0
  let kind := if udp then kindsUdp else 0
  if learn ∧ msg.guidPrefix = fp.guidPrefix then ⟨[], 0, fp.table⟩
  else
    let st := ⟨fp.table, msg.guidPrefix.1, none, none, udp, udp, false, false, [], [], 0⟩
    match parseLoop fp learn ((src.map (·.handle)).getD 0) kind mode msg.elements st with
    | .error table => ⟨[], 0, table⟩
    | .ok st =>
      let table := match src with
        | some s =>
          if learn && !st.learned && s.port != 0 then fwdLearnSource fp.toLearning st.srcPrefix st.srcP mode s st.table
          else st.table
        | none => st.table
      ⟨if st.remUc.isEmpty then st.remMc else st.remUc, st.localDsts, table⟩

/-! ## rfwd_forward -/

def word32 (w : BitVec 32) : List UInt8 :=
  [⟨w.extractLsb' 0 8⟩, ⟨w.extractLsb' 8 8⟩, ⟨w.extractLsb' 16 8⟩, ⟨w.extractLsb' 24 8⟩]

def rfwdAddInfoReplyLocators (locs : List Locator) : List UInt8 :=
  word32 (BitVec.ofNat 32 locs.length) ++ locs.flatMap fun l => word32 l.kind ++ word32 l.port ++ l.address.1

def replyLists (fp : Forwarder) (m : Mode) : List Locator × List Locator :=
  match fp.secureLocs with
  | some l => (l, [])
  | none => if m.mcast = .metaMcast then (fp.metaUcast, fp.metaMcast) else (fp.defUcast, fp.defMcast)

def msgLocatorSize : Nat := 24

/-- `dsize` of the InfoReply. -/
def replySize (lists : List Locator × List Locator) : Nat :=
  4 + lists.1.length * msgLocatorSize + if lists.2.isEmpty then 0 else 4 + lists.2.length * msgLocatorSize

def replyData (lists : List Locator × List Locator) : List UInt8 :=
  rfwdAddInfoReplyLocators lists.1 ++ if lists.2.isEmpty then [] else rfwdAddInfoReplyLocators lists.2

/-- A new submessage with `dsize` bytes of data, of which `length` keeps 16 bits. -/
def newSubmsg (id : SubmsgId) (multicast : Bool) (dsize : Nat) (data : List UInt8) : Element :=
  ⟨true, id, multicast, false, BitVec.ofNat 16 dsize, data.take (dsize % 2 ^ 16), fun _ => 0⟩

def infoReply (fp : Forwarder) (m : Mode) : Element :=
  newSubmsg .infoReply (!(replyLists fp m).2.isEmpty) (replySize (replyLists fp m)) (replyData (replyLists fp m))

def sourceEntry (msg : Message) : List UInt8 :=
  [0, 0, 0, 0, msg.version.1, msg.version.2, msg.vendor.1, msg.vendor.2] ++ msg.guidPrefix.1

/-- `dsize` of the InfoSource. -/
def sourceSize (isrc : Option Element) : Nat := infoSourceSize + (isrc.map (·.data.length)).getD 0

/-- The data of the InfoSource submessage of the copy: `dsize` bytes; the entry for the sender goes behind what has been
copied before.  `none` where the code leaves the memory of an element. -/
def infoSourceData (isrc : Option Element) (entry : List UInt8) : Option (List UInt8) :=
  match isrc with
  | none => some entry
  | some e =>
    let dsize := sourceSize isrc
    -- Data in a block of its own: it has fewer than `dsize` bytes, so `submsg_data_ptr` is NULL and is copied from.
    if maxElementData < e.data.length then none
    -- Otherwise the copy reads `dsize` bytes from the element, and writes `dsize` and the entry.
    else if maxElementData < dsize + infoSourceSize then none
    -- The entry lies behind the `dsize` bytes that are sent.
    else some (e.bytes 0 dsize)

def isInfoSource (e : Element) : Bool := e.hasHeader && e.id == .infoSrc

def isInfoReply (e : Element) : Bool := e.hasHeader && e.id == .infoReply

def wantsReply (e : Element) : Bool :=
  e.hasHeader && (e.id == .heartbeat || e.id == .heartbeatFrag || e.id == .acknack || e.id == .nackFrag)

def ownVersion : UInt8 × UInt8 := (2, 1)
def ownVendor : UInt8 × UInt8 := (1, 14)

def rfwdForward (fp : Forwarder) (msg : Message) (m : Mode) : Option Message :=
  let isrc := msg.elements.find? isInfoSource
  (infoSourceData isrc (sourceEntry msg)).map fun data =>
    let kept := msg.elements.filter fun e => !isInfoSource e && !isInfoReply e
    let copies := kept.map Element.swapped
    { version := ownVersion
      vendor := ownVendor
      guidPrefix := fp.guidPrefix
      elements := newSubmsg .infoSrc false (sourceSize isrc) data ::
        if kept.any wantsReply then infoReply fp m :: copies else copies }

end Qeo.Forward
