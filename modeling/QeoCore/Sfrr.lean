import QeoCore.Clist
import QeoCore.Trace
/-!
# Sfrr — the reliable stateful reader (rtps_sfrr.c)

One writer proxy `RemWriter`: what DATA, GAP, HEARTBEAT, the heartbeat-response timer and the reader's unblocking do to
it.  What `reader_cache_add_inst` returns for a sample (`add`), and whether the cache has room for a DATA (`accepts`),
are inputs of every step; a DATAFRAG brings along what became of its sample (`Reassembly`).

Left out: locators, statistics, traces, `data_queued` and the lost-sample notifications, which nothing here reads back.
-/
namespace Qeo.Rtps

/-- What `reader_cache_add_inst` returns, as far as its callers look: `DDS_RETCODE_OK`, `DDS_RETCODE_NO_DATA` (the
cache is full) or any other error. -/
inductive AddRes where
  | ok | noData | error
  deriving DecidableEq

/-- What a marked fragment makes of its sample: fragments still missing, complete but without room in the cache
(`ignore_last_fragment`), complete but without a usable key (`cleanup`), or a sample. -/
inductive Reassembly where
  | pending | refused | cleanup | complete
  deriving DecidableEq

/-- A DATAFRAG as `sfr_fragment` reads it.  `ctx`: a context can be had for a first fragment, i.e. another reader made
one, or the fragment numbers pass the `max_frags` test and `rfraginfo_create` has memory. -/
structure DataFragSMsg where
  fragStart : Nat
  ctx : Bool
  outcome : Reassembly
  deriving DecidableEq

structure DataSMsg where
  writerSn : Int
  ignore : Bool
  frag : Option DataFragSMsg
  accepts : Bool

structure GapSMsg where
  gapStart : Int
  base : Int
  bitmap : List Bool

structure HeartbeatSMsg where
  firstSn : Int
  lastSn : Int
  count : Nat

structure HbFlags where
  final : Bool
  liveliness : Bool

structure AckNack where
  base : Int
  bitmap : List Bool
  deriving DecidableEq

/-- The state of the acknowledgements. -/
inductive RwAState where
  | waiting | mayAck | mustAck
  deriving DecidableEq

/-- What the one timer of the proxy is running for. -/
inductive RwTimer where
  | ralive | hbrsp
  deriving DecidableEq

/-- `RemWriter_t`, with the reader's settings it consults and the record of what it handed to the cache and sent. -/
structure RemWriter where
  seqnrNext : Int
  changes : Cclist Unit
  astate : RwAState
  blocked : Bool
  heartbeats : Bool
  peerAlive : Bool
  lastHb : Nat
  hbrspTimer : Option RwTimer
  /-- `endpoint.cache_acks`: acknowledge only what the cache took. -/
  cacheAcks : Bool
  heartbeatRespDelay : Nat
  /-- Every call of `reader_cache_add_inst`, with its answer, oldest first. -/
  handed : List (Int × AddRes)
  /-- Every ACKNACK sent, oldest first. -/
  acknacks : List AckNack

abbrev RwRef := Ccref Unit

/-- Has the change been received as a whole or been given up? -/
def Ccref.settled (rp : RwRef) : Bool :=
  rp.state == .lost || (rp.state == .received && !rp.fragments)

namespace RemWriter

/-! ## Starting -/

def sfrRelInitAcknack (p : RemWriter) : RemWriter :=
  { p with acknacks := p.acknacks ++ [⟨0, []⟩] }

def sfrRelStart (cacheAcks : Bool) (heartbeatRespDelay : Nat) : RemWriter :=
  sfrRelInitAcknack
    { seqnrNext := 1, changes := .empty, astate := .waiting, blocked := false, heartbeats := false,
      peerAlive := false, lastHb := 0, hbrspTimer := some .ralive, cacheAcks, heartbeatRespDelay,
      handed := [], acknacks := [] }

def sfrRelAlive (p : RemWriter) : RemWriter :=
  { p with peerAlive := true, hbrspTimer := none }

def alive (p : RemWriter) : RemWriter :=
  if p.peerAlive then p else p.sfrRelAlive

/-! ## Handing samples to the cache -/

/-- What a pass over the head of the list leaves: the next number, the list, and the calls made. -/
structure Drain where
  next : Int
  nodes : List RwRef
  handed : List (Int × AddRes)
  removed : Nat
  blocked : Bool

def Drain.cons (calls : List (Int × AddRes)) (d : Drain) : Drain :=
  { d with handed := calls ++ d.handed, removed := d.removed + 1 }

/-- The loop of `sfr_process_samples`: settled changes are handed to the cache until it refuses one. -/
def drain (add : Int → AddRes) : Int → List RwRef → Drain
  | next, [] => ⟨next, [], [], 0, false⟩
  | next, rp :: rest =>
    if rp.settled then
      if rp.first ≠ next then ⟨next, rp :: rest, [], 0, false⟩
      else match rp.u with
        | .sample s =>
          if rp.state = .received then
            -- If cache is full, try again later.
            if add s = .noData then ⟨next, rp :: rest, [(s, .noData)], 0, true⟩
            else (drain add (s + 1) rest).cons [(s, add s)]
          else (drain add (s + 1) rest).cons []
        | .range _ b => (drain add (b + 1) rest).cons []
    else ⟨next, rp :: rest, [], 0, false⟩

def sfrProcessSamples (add : Int → AddRes) (p : RemWriter) : RemWriter :=
  let d := drain add p.seqnrNext p.changes.nodes
  { p with
    seqnrNext := d.next
    changes := ⟨d.nodes, p.changes.nchanges - d.removed⟩
    handed := p.handed ++ d.handed
    blocked := p.blocked || d.blocked }

/-! ## DATA and DATAFRAG -/

def received (snr : Int) : RwRef := ⟨(), .received, false, false, .sample snr⟩

/-- A received change; one that is ignored is a gap. -/
def dataNode (snr : Int) (ignore : Bool) : RwRef :=
  if ignore then .gap () snr snr .received else received snr

/-- How `sfr_fragment` ends: it simply returns, returns having found the cache full, or hands on what is in order. -/
inductive FragEnd where
  | wait | full | process

/-- The node after a fragment. -/
def markFragment (refp : RwRef) (snr : Int) : Reassembly → RwRef × FragEnd
  | .pending => ({ refp with fragments := true }, .wait)
  | .refused => ({ refp with fragments := true }, .full)
  | .cleanup => ({ refp with state := .missing, fragments := false, u := .range snr snr }, .wait)
  | .complete => ({ refp with fragments := false }, .process)

/-- What `sfr_fragment` does to the node `refp`.  No result: a DATA without `fragp` for a sample with a context. -/
def sfrFragmentNode (refp : RwRef) (fragp : Option DataFragSMsg) (ignore : Bool) : Option (RwRef × FragEnd) :=
  match fragp with
  | none => none
  | some f =>
    match refp.u with
    | .range _ _ => some ({ refp with state := .received }, .process)
    | .sample snr =>
      if refp.fragments then
        -- A first fragment of a sample that is to be ignored aborts the reception.
        if f.fragStart = 1 ∧ ignore then
          some ({ refp with state := .received, fragments := false, u := .range snr snr }, .process)
        else some (markFragment refp snr f.outcome)
      else if f.ctx then some (markFragment refp snr f.outcome)
      -- `no_frag_mem`: the node stays in the list with the change that is freed here.
      else some ({ refp with state := .missing }, .wait)

def sfrFragment (add : Int → AddRes) (p : RemWriter) (pre : List RwRef) (refp : RwRef) (post : List RwRef)
    (d : DataSMsg) (ooo : Bool) : Option RemWriter :=
  match sfrFragmentNode refp d.frag d.ignore with
  | none => none
  | some (refp, e) =>
    let p := { p with changes := { p.changes with nodes := pre ++ refp :: post } }
    match e with
    | .wait => some p
    | .full => some (if ooo then p else { p with blocked := true })
    | .process => some (p.sfrProcessSamples add)

/-- The node that holds a number, with those before and after it. -/
def findSnr (snr : Int) : List RwRef → Option (List RwRef × RwRef × List RwRef)
  | [] => none
  | rp :: rest =>
    if rp.first ≤ snr ∧ snr ≤ rp.last then some ([], rp, rest)
    else (findSnr snr rest).map fun (pre, x, post) => (rp :: pre, x, post)

/-- A missing range in which one number arrives. -/
def splitGap (rp : RwRef) (snr : Int) (ignore : Bool) : List RwRef × RwRef × List RwRef :=
  let node := { rp with fragments := false, state := .received, u := if ignore then .range snr snr else .sample snr }
  (if rp.first < snr then [.gap () rp.first (snr - 1) .missing] else [], node,
    if snr < rp.last then [.gap () (snr + 1) rp.last .missing] else [])

section
variable (list : Cclist Unit)

/-- More missing numbers at the tail, joined with a missing tail. -/
def missingTail (first last : Int) : Cclist Unit :=
  match list.nodes.getLast? with
  | some tail =>
    if tail.relevant = false ∧ tail.state = .missing
    then { list with nodes := list.nodes.dropLast ++ [tail.setLast last] }
    else list.ccrefAddGap () first last true .missing
  | none => list

/-- More missing numbers at the head, joined with a gap that may grow. -/
def missingHead (first last : Int) (mayGrow : Bool) : Cclist Unit :=
  match list.nodes with
  | head :: rest =>
    if head.relevant = false ∧ mayGrow then { list with nodes := head.setFirst first :: rest }
    else list.ccrefAddGap () first last false .missing
  | [] => list

/-- A change behind the tail. -/
def dataAfter (seqnrLast snr : Int) (ignore : Bool) : Cclist Unit :=
  let list := if seqnrLast + 1 = snr then list else missingTail list (seqnrLast + 1) (snr - 1)
  if ignore then list.ccrefAddGap () snr snr true .received
  else ⟨list.nodes ++ [received snr], list.nchanges + 1⟩

def tailMissing : Bool := list.nodes.getLast?.any fun tail => tail.state == .missing

/-- A change before the head. -/
def dataBefore (seqnrFirst snr : Int) (ignore : Bool) : Cclist Unit :=
  let list := if seqnrFirst - 1 = snr then list else missingHead list (snr + 1) (seqnrFirst - 1) (tailMissing list)
  if ignore then list.ccrefAddGap () snr snr false .received
  else ⟨received snr :: list.nodes, list.nchanges + 1⟩

end

def dataProcess (add : Int → AddRes) (p : RemWriter) : RemWriter :=
  match p.changes.nodes with
  | rp :: _ => if rp.settled && p.heartbeats then p.sfrProcessSamples add else p
  | [] => p

section
variable (add : Int → AddRes) (p : RemWriter) (d : DataSMsg)

section
variable (ooo : Bool)

def dataLast (seqnrLast : Int) : Option RemWriter :=
  let p := { p with changes := dataAfter p.changes seqnrLast d.writerSn d.ignore }
  match d.frag, p.changes.nodes.getLast? with
  | some _, some rp => sfrFragment add p p.changes.nodes.dropLast rp [] d ooo
  | _, _ => some (p.dataProcess add)

def dataFirst (seqnrFirst : Int) : Option RemWriter :=
  let p := { p with changes := dataBefore p.changes seqnrFirst d.writerSn d.ignore }
  match d.frag, p.changes.nodes with
  | some _, rp :: rest => sfrFragment add p [] rp rest d ooo
  | _, _ => some (p.dataProcess add)

def dataInside : Option RemWriter :=
  match findSnr d.writerSn p.changes.nodes with
  | none => some p
  | some (pre, rp, post) =>
    if rp.fragments then sfrFragment add p pre rp post d ooo
    else if rp.state ≠ .missing then some p
    else
      let (before, node, after) := splitGap rp d.writerSn d.ignore
      let p := { p with changes :=
        ⟨pre ++ before ++ node :: (after ++ post), p.changes.nchanges + before.length + after.length⟩ }
      match d.frag with
      | some _ => sfrFragment add p (pre ++ before) node (after ++ post) d ooo
      | none => some (p.dataProcess add)

/-- A change that has to wait in a list that is not empty. -/
def dataQueued (seqnrFirst seqnrLast : Int) :
    Option RemWriter :=
  if seqnrLast < d.writerSn then p.dataLast add d ooo seqnrLast
  else if d.writerSn < seqnrFirst then p.dataFirst add d ooo seqnrFirst
  else p.dataInside add d ooo

def addFirstNode : Option RemWriter :=
  let node := dataNode d.writerSn d.ignore
  let p := { p with changes := ⟨[node], p.changes.nchanges + 1⟩ }
  if d.frag.isSome && !d.ignore then sfrFragment add p [] node [] d ooo else some p

/-- The change that is expected next. -/
def dataDirect : Option RemWriter :=
  if !ooo && d.frag.isNone then
    if d.ignore then some { p with seqnrNext := p.seqnrNext + 1 }
    else
      let p := { p with handed := p.handed ++ [(d.writerSn, add d.writerSn)] }
      if add d.writerSn = .noData then p.addFirstNode add d ooo
      else some { p with seqnrNext := p.seqnrNext + 1 }
  else p.addFirstNode add d ooo

end

/-- `sfr_rel_data`.  No result: the handler runs into undefined behaviour (`sfrFragmentNode`). -/
def sfrRelData : Option RemWriter :=
  let p := p.alive
  if d.writerSn < p.seqnrNext then some p
  else
    let ooo := d.writerSn != p.seqnrNext
    if !d.ignore && d.frag.isNone && !d.accepts then
      -- Not seen as rejected: without an acknowledgement, the sample will be retransmitted.
      some (if ooo then p else { p with blocked := true })
    else match p.changes.nodes, p.changes.nodes.getLast? with
      | head :: _, some tail => p.dataQueued add d ooo head.first tail.last
      | _, _ => p.dataDirect add d ooo

end

/-! ## GAP -/

def sfrRelGapSet (rp : RwRef) (a b first last : Int) : List RwRef :=
  (if a < first then [{ rp with u := .range a (first - 1) }, .gap () first last .received]
    else [{ rp with state := .received, u := .range a last }])
  ++ if last < b then [.gap () (last + 1) b rp.state] else []

def gapSample (rp : RwRef) (s first : Int) : RwRef :=
  if rp.fragments && first == s then { rp with fragments := false, state := .lost } else rp

/-- A range of the list that a GAP overlaps. -/
def gapNodes (rp : RwRef) (a b first last : Int) : List RwRef :=
  if rp.state ≠ .received then sfrRelGapSet rp a b first last else [rp]

/-- The loop of `sfr_rel_gap_range` over changes that overlap with the gap: the list, the nodes added, and where `first`
has got to.  A node put behind `rp` by `sfr_rel_gap_set` ends below `first` and is passed by. -/
def gapOverlap (last : Int) : Int → List RwRef → List RwRef × Nat × Int
  | first, [] => ([], 0, first)
  | first, rp :: rest =>
    match rp.u with
    | .sample s =>
      if first ≤ s then
        -- Ignore this sequence number since it was already received!
        if last < first + 1 then (gapSample rp s first :: rest, 0, first + 1)
        else
          let r := gapOverlap last (first + 1) rest
          (gapSample rp s first :: r.1, r.2)
      else if last < first then (rp :: rest, 0, first)
      else
        let r := gapOverlap last first rest
        (rp :: r.1, r.2)
    | .range a b =>
      if b < first then
        let r := gapOverlap last first rest
        (rp :: r.1, r.2)
      else
        let s2 := min b last
        let nodes := gapNodes rp a b first s2
        if last < s2 + 1 then (nodes ++ rest, nodes.length - 1, s2 + 1)
        else
          let r := gapOverlap last (s2 + 1) rest
          (nodes ++ r.1, nodes.length - 1 + r.2.1, r.2.2)

/-- What the loop makes of one node, and where `first` gets to. -/
inductive GapStep (rp : RwRef) (last first : Int) : List RwRef → Int → Prop
  | sample : rp.u = .sample s → first ≤ s → GapStep rp last first [gapSample rp s first] (first + 1)
  | passed : rp.last < first → GapStep rp last first [rp] first
  | range : rp.u = .range a b → first ≤ b →
    GapStep rp last first (gapNodes rp a b first (min b last)) (min b last + 1)

theorem gapOverlap_cons {last first : Int} (hle : first ≤ last) (rp : RwRef) (rest : List RwRef) :
    ∃ parts first', GapStep rp last first parts first' ∧ gapOverlap last first (rp :: rest) =
      if last < first' then (parts ++ rest, parts.length - 1, first')
      else (parts ++ (gapOverlap last first' rest).1, parts.length - 1 + (gapOverlap last first' rest).2.1,
        (gapOverlap last first' rest).2.2) := by
  rw [gapOverlap]
  split
  · rename_i s hu
    split
    · exact ⟨_, _, .sample hu ‹_›, by simp⟩
    · exact ⟨_, _, .passed (by rw [Ccref.last_of_sample hu]; omega), by simp⟩
  · rename_i x y hu
    split
    · refine ⟨_, _, .passed (by rw [Ccref.last_of_range hu]; omega), ?_⟩
      rw [if_neg (by omega)]
      simp
    · exact ⟨_, _, .range hu (by omega), rfl⟩

def sfrRelGapRange (p : RemWriter) (first last : Int) : RemWriter × Int :=
  if last < p.seqnrNext then (p, first)
  else
    let first := if first < p.seqnrNext then p.seqnrNext else first
    match p.changes.nodes, p.changes.nodes.getLast? with
    | head :: _, some tail =>
      if tail.last < first then
        let list := if tail.last + 1 < first
          then p.changes.ccrefAddGap () (tail.last + 1) (first - 1) true .missing else p.changes
        ({ p with changes := list.ccrefAddGap () first last true .received }, first)
      else if last < head.first then
        let list := if last < head.first - 1
          then p.changes.ccrefAddGap () (last + 1) (head.first - 1) false .missing else p.changes
        ({ p with changes := list.ccrefAddGap () first last false .received }, first)
      else
        let r := gapOverlap last first p.changes.nodes
        ({ p with changes := ⟨r.1, p.changes.nchanges + r.2.1⟩ }, r.2.2)
    | _, _ => ({ p with changes := p.changes.ccrefAddGap () first last true .received }, first)

/-- The runs of set bits of a bitmap whose first bit stands for `snr`, as `sfr_rel_gap` collects them; `run` is the
first number of the run it is in. -/
def bitRuns : Option Int → Int → List Bool → List (Int × Int)
  | none, _, [] => []
  | some s, snr, [] => [(s, snr - 1)]
  | none, snr, true :: bits => bitRuns (some snr) (snr + 1) bits
  | some s, snr, true :: bits => bitRuns (some s) (snr + 1) bits
  | none, snr, false :: bits => bitRuns none (snr + 1) bits
  | some s, snr, false :: bits => (s, snr - 1) :: bitRuns none (snr + 1) bits

/-- `sfr_rel_gap`, with the message as it leaves it: `sfr_rel_gap_range` moves `gap_start`. -/
def sfrRelGap (add : Int → AddRes) (p : RemWriter) (gp : GapSMsg) : RemWriter × GapSMsg :=
  let p := p.alive
  let r := if gp.gapStart < gp.base then p.sfrRelGapRange gp.gapStart (gp.base - 1) else (p, gp.gapStart)
  let p := (bitRuns none gp.base gp.bitmap).foldl (fun p r => (p.sfrRelGapRange r.1 r.2).1) r.1
  (match p.changes.nodes with
    | rp :: _ => if rp.state = .received ∨ rp.state = .lost then p.sfrProcessSamples add else p
    | [] => p,
   { gp with gapStart := r.2 })

/-! ## ACKNACK -/

structure AckMode where
  cacheAcks : Bool
  blocked : Bool
  next : Int

section
variable (p : RemWriter)

def ackMode : AckMode := ⟨p.cacheAcks, p.blocked, p.seqnrNext⟩

/-- The bits for the numbers of a range. -/
def ackRange (m : AckMode) (state : ChangeState) (b : Int) : Nat → Int → List Bool
  | 0, _ => []
  | room + 1, snr =>
    if b < snr then []
    else if state = .received ∧ m.cacheAcks then []
    else if m.blocked ∧ m.next ≠ snr then []
    else decide (state = .missing) :: ackRange m state b room (snr + 1)

/-- The bitmap of an ACKNACK: set where a number is missing. -/
def ackBits (m : AckMode) : Nat → List RwRef → List Bool
  | _, [] => []
  | room, rp :: rest =>
    match rp.u with
    | .sample _ =>
      if rp.state = .received ∧ ¬ rp.fragments ∧ m.cacheAcks then []
      else if m.blocked then []
      else
        let bit := decide (rp.state = .missing) || rp.fragments
        if room ≤ 1 then [bit] else bit :: ackBits m (room - 1) rest
    | .range a b =>
      let bits := ackRange m rp.state b room a
      if room ≤ bits.length then bits else bits ++ ackBits m (room - bits.length) rest

def ackNack : AckNack := ⟨p.seqnrNext, ackBits p.ackMode (8 * 32) p.changes.nodes⟩

def sfrRelDoAckNl : RemWriter :=
  { p with acknacks := p.acknacks ++ [p.ackNack] }

def sfrRelDoAck : RemWriter :=
  sfrRelDoAckNl (if p.heartbeatRespDelay ≠ 0 then { p with hbrspTimer := none } else p)

def timeout : RemWriter :=
  match p.hbrspTimer with
  | some .ralive => p.sfrRelInitAcknack
  | some .hbrsp => p.sfrRelDoAck
  | none => p

end

/-! ## HEARTBEAT -/

/-- Numbers that the writer no longer has are lost unless they have been received. -/
def markLost (firstSn : Int) : Int → List RwRef → List RwRef × Nat
  | _, [] => ([], 0)
  | snr, rp :: rest =>
    if snr < firstSn then
      match rp.u with
      | .sample _ =>
        let rp := if rp.state ≠ .received ∨ rp.fragments then { rp with state := .lost, fragments := false } else rp
        let r := markLost firstSn (snr + 1) rest
        (rp :: r.1, r.2)
      | .range a b =>
        let state := if rp.state ≠ .received then .lost else rp.state
        if firstSn ≤ b then
          ({ rp with state, u := .range a (firstSn - 1) } :: .gap () firstSn b rp.state :: rest, 1)
        else
          let r := markLost firstSn (b + 1) rest
          ({ rp with state } :: r.1, r.2)
    else (rp :: rest, 0)

def heartbeatLost (add : Int → AddRes) (p : RemWriter) (firstSn : Int) : RemWriter :=
  match p.changes.nodes with
  | [] => p
  | head :: _ =>
    let r := markLost firstSn head.first p.changes.nodes
    let q := { p with changes := ⟨r.1, p.changes.nchanges + r.2⟩ }
    if head.first ≤ firstSn ∧ p.seqnrNext < firstSn then
      sfrProcessSamples add { q with seqnrNext := head.first }
    else q

/-- The next number is not below the first one that the writer has. -/
def raise (p : RemWriter) (firstSn : Int) : RemWriter :=
  if p.seqnrNext < firstSn then { p with seqnrNext := firstSn } else p

def heartbeatFirst (add : Int → AddRes) (p : RemWriter) (firstSn : Int) : RemWriter :=
  (p.heartbeatLost add firstSn).raise firstSn

def headMissing (list : Cclist Unit) : Bool := list.nodes.head?.any fun head => head.state == .missing

def missingBefore (list : Cclist Unit) (firstSn : Int) : Cclist Unit :=
  match list.nodes with
  | [] => list
  | head :: _ => if firstSn < head.first then missingHead list firstSn (head.first - 1) (headMissing list) else list

def missingAfter (list : Cclist Unit) (lastSn : Int) : Cclist Unit :=
  match list.nodes.getLast? with
  | none => list
  | some tail => if tail.last < lastSn then missingTail list (tail.last + 1) lastSn else list

/-- Announced numbers that are not in the list are missing. -/
def heartbeatMissing (p : RemWriter) (firstSn lastSn : Int) : RemWriter :=
  if lastSn < p.seqnrNext then p
  else if p.changes.nodes.isEmpty then
    { p with changes := p.changes.ccrefAddGap () firstSn lastSn true .missing }
  else { p with changes := missingAfter (missingBefore p.changes firstSn) lastSn }

def heartbeatFlags (p : RemWriter) (flags : HbFlags) (wakeup : Bool) : RemWriter × Bool :=
  if !flags.final then
    let p := { p with astate := .mustAck }
    if !wakeup && p.heartbeatRespDelay != 0 then ({ p with hbrspTimer := some .hbrsp }, false) else (p, true)
  else if !flags.liveliness then ({ p with astate := .mayAck }, false)
  else (p, false)

def heartbeatAck (p : RemWriter) (sendAck : Bool) : RemWriter :=
  let r := if p.astate = .mayAck then
      if p.changes.nodes.isEmpty then ({ p with astate := .waiting }, sendAck)
      else
        let p := { p with astate := .mustAck }
        if p.heartbeatRespDelay ≠ 0 then ({ p with hbrspTimer := some .hbrsp }, false) else (p, true)
    else (p, sendAck)
  if r.2 then r.1.sfrRelDoAckNl else r.1

/-- A heartbeat for liveliness only, or one that was seen already. -/
def ignoresHeartbeat (p : RemWriter) (hp : HeartbeatSMsg) (flags : HbFlags) : Bool :=
  flags.liveliness && flags.final || hp.count == p.lastHb

/-- `sfr_rel_heartbeat`, with the message as it leaves it: `first_sn` is raised to `rw_seqnr_next`. -/
def sfrRelHeartbeat (add : Int → AddRes) (p : RemWriter) (hp : HeartbeatSMsg) (flags : HbFlags) :
    RemWriter × HeartbeatSMsg :=
  let wakeup := !p.peerAlive
  let p := p.alive
  if p.ignoresHeartbeat hp flags then (p, hp)
  else
    let r := heartbeatFlags { p with lastHb := hp.count } flags wakeup
    let p := heartbeatFirst add { r.1 with heartbeats := true } hp.firstSn
    let hp := if hp.firstSn < p.seqnrNext then { hp with firstSn := p.seqnrNext } else hp
    ((p.heartbeatMissing hp.firstSn hp.lastSn).heartbeatAck r.2, hp)

/-! ## The reader's cache has room again -/

def unblock (add : Int → AddRes) (p : RemWriter) : RemWriter :=
  if p.blocked then sfrProcessSamples add { p with blocked := false } else p

end RemWriter

/-! ## What can happen to a writer proxy

The events of a proxy's life, the checks a submessage has passed before it gets here, and runs from `sfr_rel_start`.
-/

/-- What can happen to the proxy of a remote writer. -/
inductive ReaderEvent where
  | data (d : DataSMsg) (add : Int → AddRes)
  | gap (gp : GapSMsg) (add : Int → AddRes)
  | heartbeat (hp : HeartbeatSMsg) (flags : HbFlags) (add : Int → AddRes)
  | timeout
  | unblock (add : Int → AddRes)

/-- The checks of `submsg_rx_gap`: numbers from 1 on, in order, and at most 256 bits. -/
def GapSMsg.Valid (gp : GapSMsg) : Prop :=
  0 < gp.gapStart ∧ gp.gapStart ≤ gp.base ∧ gp.bitmap.length ≤ 256

/-- What the checks of the receiver let through. -/
def HeartbeatSMsg.Valid (hp : HeartbeatSMsg) : Prop :=
  0 < hp.firstSn ∧ 0 ≤ hp.lastSn ∧ hp.firstSn ≤ hp.lastSn + 1

/-- The receiver's checks: `submsg_rx_data` and `submsg_rx_data_frag` want a sequence number other than 0, and fragments
are numbered from 1. -/
def ReaderEvent.Valid : ReaderEvent → Prop
  | .data d _ => d.writerSn ≠ 0 ∧ ∀ f ∈ d.frag, 1 ≤ f.fragStart
  | .gap gp _ => gp.Valid
  | .heartbeat hp _ _ => hp.Valid
  | .timeout => True
  | .unblock _ => True

instance (gp : GapSMsg) : Decidable gp.Valid := by unfold GapSMsg.Valid; infer_instance
instance (hp : HeartbeatSMsg) : Decidable hp.Valid := by unfold HeartbeatSMsg.Valid; infer_instance

instance : (e : ReaderEvent) → Decidable e.Valid
  | .data d _ => inferInstanceAs (Decidable (d.writerSn ≠ 0 ∧ ∀ f ∈ d.frag, 1 ≤ f.fragStart))
  | .gap gp _ => inferInstanceAs (Decidable gp.Valid)
  | .heartbeat hp _ _ => inferInstanceAs (Decidable hp.Valid)
  | .timeout | .unblock _ => .isTrue trivial

def RemWriter.step (p : RemWriter) : ReaderEvent → Option RemWriter
  | .data d add => p.sfrRelData add d
  | .gap gp add => some (p.sfrRelGap add gp).1
  | .heartbeat hp flags add => some (p.sfrRelHeartbeat add hp flags).1
  | .timeout => some p.timeout
  | .unblock add => some (p.unblock add)

end Qeo.Rtps
