import QeoCore.Clist
import QeoCore.Trace
/-!
# Sfrw — the reliable writer's reader proxy (rtps_sfrw.c, rtps_clist.c)

A writer keeps, for every remote reader, the list `rr_changes` of what the reader has not acknowledged, and two pointers
into it: `rr_unsent_changes`, from where on to push, and `rr_requested_changes`, from where on to repair.  Nodes have
addresses here, `nextAddr` is the next one from the pool, and following a pointer to a freed node has no result.

Of the writer's cache a proxy consults `hc_last_seqnr` and, when it replays, the changes in it.
-/
namespace Qeo.Rtps

/-- The state of the transmitter. -/
inductive RrTState where
  | idle | announcing | pushing
  deriving DecidableEq

/-- The state of the receiver of acknowledgements. -/
inductive RrAState where
  | waiting | mustRepair | repairing
  deriving DecidableEq

/-- What the one timer of the proxy is running for. -/
inductive RrTimer where
  | walive | nackRsp
  deriving DecidableEq

/-- What the content and time filters say about a change. -/
inductive FilterRes where
  | allow | filtered | delayed
  deriving DecidableEq

abbrev RrRef := Ccref Nat

/-- `RemReader_t`, with the settings of the writer and the reader it consults. -/
structure RemReader where
  changes : Cclist Nat
  newSnr : Int
  unsentChanges : Option Nat
  requestedChanges : Option Nat
  tstate : RrTState
  astate : RrAState
  peerAlive : Bool
  nackTimer : Option RrTimer
  lastAck : Nat
  /-- `endpoint.push_mode`. -/
  pushMode : Bool
  /-- `durable_reader`. -/
  durable : Bool
  nackRespDelay : Nat
  /-- `hc_last_seqnr` of the writer's cache. -/
  lastSeqnr : Int
  /-- The next node of the pool. -/
  nextAddr : Nat
  /-- Every node that `sfw_rel_rem_change` has taken for a sample: what it held, and the number to remove. -/
  freed : List (Entry × Int)

structure AckNackSMsg where
  base : Int
  bitmap : List Bool
  count : Nat

inductive TxMsg where
  | data (snr : Int)
  | gap (start base : Int) (bits : List Bool)
  | heartbeat (first last : Int) (final liveliness : Bool)
  deriving DecidableEq

/-- The changes in the writer cache, by sequence number. -/
abbrev Cached := List (Int × FilterRes)

namespace RemReader

def changeEnqueue (p : RemReader) (snr : Int) (state : ChangeState) : RemReader :=
  { p with
    changes := ⟨p.changes.nodes ++ [⟨p.nextAddr, state, false, false, .sample snr⟩], p.changes.nchanges + 1⟩
    nextAddr := p.nextAddr + 1 }

/-- The node that `change_enqueue_gap` returns: the tail if it was extended, otherwise a new one. -/
def gapAddr (p : RemReader) (state : ChangeState) : Nat :=
  match p.changes.nodes.getLast? with
  | some xrp => if xrp.relevant = false ∧ xrp.state = state then xrp.addr else p.nextAddr
  | none => p.nextAddr

def changeEnqueueGap (p : RemReader) (first last : Int) (state : ChangeState) : RemReader :=
  { p with changes := p.changes.addGapTail p.nextAddr first last state, nextAddr := p.nextAddr + 1 }

def sfwAnnounce (p : RemReader) : RemReader := { p with tstate := .announcing }

/-! ## A new change -/

section
variable (p : RemReader)

/-- The list after a new change; a gap in the numbers becomes a gap node. -/
def newChangeList (cp : Bool) (snr : Int) (state : ChangeState) : RemReader × Option Nat :=
  match p.changes.nodes.getLast? with
  | some tail =>
    if tail.relevant then
      let gapFirst := tail.last + 1
      let gapLast := if cp then snr - 1 else snr
      let q := if gapFirst ≠ snr ∨ !cp then p.changeEnqueueGap gapFirst gapLast state else p
      if cp then (q.changeEnqueue snr state, some q.nextAddr) else (q, some (p.gapAddr state))
    else if cp then
      let q := { p with changes := ⟨p.changes.nodes.dropLast ++ [tail.setLast (snr - 1)], p.changes.nchanges⟩ }
      (q.changeEnqueue snr state, some q.nextAddr)
    else
      ({ p with
          changes := ⟨p.changes.nodes.dropLast ++ [{ tail.setLast snr with state }], p.changes.nchanges⟩ }, none)
  | none =>
    if cp then (p.changeEnqueue snr state, some p.nextAddr)
    else (p.changeEnqueueGap snr snr state, some (p.gapAddr state))

def setAckReq (addr : Nat) : RemReader :=
  { p with
    changes := ⟨p.changes.nodes.map fun rp => if rp.addr = addr then { rp with ackReq := true } else rp,
      p.changes.nchanges⟩ }

def changeQueued (rhTimer cp : Bool) (state : ChangeState) : Option Nat → RemReader
  | none => p
  | some rp =>
    let p := if cp then p.setAckReq rp else p
    let p := { p with unsentChanges := p.unsentChanges.or (some rp) }
    if p.peerAlive ∧ state = .unsent then { p with tstate := .pushing }
    else if !rhTimer then p.sfwAnnounce
    else p

def newState : ChangeState := if p.pushMode then .unsent else .unacked

def sfwRelNewChange (rhTimer cp : Bool) (snr : Int) : RemReader :=
  let r := p.newChangeList cp snr p.newState
  r.1.changeQueued rhTimer cp p.newState r.2

end

def proxyAddChange (rhTimer : Bool) (p : RemReader) (c : Int × FilterRes) : RemReader :=
  match c.2 with
  | .allow => p.sfwRelNewChange rhTimer true c.1
  | .filtered => p.sfwRelNewChange rhTimer false c.1
  | .delayed => p

/-- Every cached change is offered to the proxy. -/
def replay (p : RemReader) (rhTimer : Bool) (cached : Cached) : RemReader :=
  cached.foldl (proxyAddChange rhTimer) p

def sfwRelStart (pushMode durable : Bool) (nackRespDelay : Nat) (rhTimer : Bool) (cached : Cached) (lastSeqnr : Int) :
    RemReader :=
  let p : RemReader :=
    { changes := .empty, newSnr := 0, unsentChanges := none, requestedChanges := none, tstate := .idle,
      astate := .waiting, peerAlive := false, nackTimer := none, lastAck := 0, pushMode, durable, nackRespDelay,
      lastSeqnr, nextAddr := 0, freed := [] }
  let p := if durable then { p with newSnr := 1 }.replay rhTimer cached else { p with newSnr := lastSeqnr + 1 }
  if p.unsentChanges ≠ none then { p with nackTimer := some .walive } else p

end RemReader

/-! ## Sending -/

/-- A GAP that is being collected. -/
structure GapInfo where
  start : Int
  base : Int
  bits : List Bool
  deriving DecidableEq

/-- What the transmit side makes of the sample or gap that starts at a number: whether someone waits for the sample
(`c_wack`), whether it goes out in fragments, and whether adding the submessage fails.  Number 0 is the GAP that is left
at the end. -/
structure TxRes where
  wack : Bool
  frags : Bool
  error : Bool

/-- `seqnr_delta`; a difference of 2 ^ 32 counts as 0. -/
def seqnrDelta (snr1 snr2 : Int) : Int :=
  if 2 ^ 32 < snr2 - snr1 then 2 ^ 32 - 1 else (snr2 - snr1) % 2 ^ 32

/-- The numbers `first ..= last` as bits of the GAP, from the index `seqnr_delta` gives for `first` on.  An index past
the end of `gap_bits` is kept here, so that its use shows. -/
def GapInfo.add (gap : GapInfo) (first last : Int) : GapInfo :=
  let delta := (seqnrDelta gap.base first).toNat
  { gap with
    bits := (List.range (delta + (last - first).toNat + 1)).map fun i => gap.bits.getD i false || decide (delta ≤ i) }

def GapInfo.msg (gap : GapInfo) : TxMsg := .gap gap.start gap.base gap.bits

/-- The GAP that is left at the end.  What `rtps_msg_add_gap` returns for it is not looked at. -/
def flush (tx : Int → TxRes) (gap : Option GapInfo) : List TxMsg :=
  if (tx 0).error then [] else (gap.map GapInfo.msg).toList

structure Sent where
  node : RrRef
  gap : Option GapInfo
  msgs : List TxMsg
  error : Bool

/-- One node of the list: its data, or its range in the GAP that is being collected. -/
def sendNode (tx : Int → TxRes) (gap : Option GapInfo) (rp : RrRef) : Sent :=
  match rp.u with
  | .sample s =>
    if (tx s).wack then
      ⟨{ rp with state := .underway, fragments := rp.fragments || (tx s).frags }, gap,
        if (tx s).error then [] else [.data s], (tx s).error⟩
    else ⟨{ rp with state := .underway }, gap, [], false⟩
  | .range a b =>
    if rp.state = .underway then ⟨rp, gap, [], false⟩
    else match gap with
      | some g =>
        if seqnrDelta g.base b ≤ 255 then ⟨{ rp with state := .underway }, some (g.add a b), [], false⟩
        else
          -- Send existing gap, start with new gap.
          ⟨{ rp with state := .underway }, some ⟨a, b + 1, []⟩, if (tx a).error then [] else [g.msg], (tx a).error⟩
      | none => ⟨{ rp with state := .underway }, some ⟨a, b + 1, []⟩, [], false⟩

/-- What a pass over the list leaves.  `stopped` is set when it ends early, with what the pass's pointer is then. -/
structure Pass where
  nodes : List RrRef
  gap : Option GapInfo
  msgs : List TxMsg
  stopped : Option (Option Nat)

def Pass.cons (rp : RrRef) (msgs : List TxMsg) (r : Pass) : Pass :=
  { r with nodes := rp :: r.nodes, msgs := msgs ++ r.msgs }

/-- The loop over the unsent changes. -/
def pushPass (tx : Int → TxRes) : Option GapInfo → List RrRef → Pass
  | gap, [] => ⟨[], gap, [], none⟩
  | gap, rp :: rest =>
    let r := sendNode tx gap rp
    if r.error then ⟨r.node :: rest, r.gap, r.msgs, some (some rp.addr)⟩
    else (pushPass tx r.gap rest).cons r.node r.msgs

/-- The look for the next requested node passes by a sample that has gone out in fragments.  It then marks the node it
started from, not the one it passes by. -/
def passesFragments : List RrRef → Bool
  | [] => false
  | rp :: rest => if rp.state = .requested then rp.relevant && rp.fragments else passesFragments rest

/-- Repairing: every requested node, samples in fragments apart.  Before the first one those are marked as underway.
`started` says that the first one has been found. -/
def repairPass (tx : Int → TxRes) : Bool → Option GapInfo → List RrRef → Pass × Bool
  | started, gap, [] => (⟨[], gap, [], none⟩, started)
  | started, gap, rp :: rest =>
    if rp.state ≠ .requested then
      let r := repairPass tx started gap rest
      (r.1.cons rp [], r.2)
    else if rp.relevant && rp.fragments then
      let r := repairPass tx started gap rest
      (r.1.cons (if started then rp else { rp with state := .underway }) [], r.2)
    else
      let r := sendNode tx gap (if passesFragments rest then { rp with state := .underway } else rp)
      if r.error then (⟨r.node :: rest, r.gap, r.msgs, some (if started then some rp.addr else none)⟩, true)
      else
        let q := repairPass tx true r.gap rest
        (q.1.cons r.node r.msgs, q.2)

def fragmentsUnderway (nodes : List RrRef) : List RrRef :=
  nodes.map fun rp =>
    if rp.state = .requested ∧ rp.relevant ∧ rp.fragments then { rp with state := .underway } else rp

namespace RemReader

def withNodes (p : RemReader) (nodes : List RrRef) : RemReader :=
  { p with changes := ⟨nodes, p.changes.nchanges⟩ }

/-- `sfw_rel_send_data`, with what it sends and what it returns.  `active` is `rr_active`. -/
def sfwRelSendData (p : RemReader) (active : Bool) (tx : Int → TxRes) : Option (RemReader × List TxMsg × Bool) :=
  let p := { p with requestedChanges := none }
  if p.changes.nchanges = 0 then some (p, [], false)
  else if p.tstate = .pushing then
    match p.unsentChanges with
    | none => some (p.sfwAnnounce, [], false)
    | some u =>
      match p.changes.nodes.span fun rp => rp.addr != u with
      | (_, []) => none
      | (pre, post) =>
        let r := pushPass tx none post
        let q := p.withNodes (pre ++ r.nodes)
        match r.stopped with
        | some cursor => some ({ q with unsentChanges := cursor }, r.msgs, true)
        | none => some ({ q with unsentChanges := none }.sfwAnnounce, r.msgs ++ flush tx r.gap, false)
  else if p.astate = .repairing then
    let r := repairPass tx false none p.changes.nodes
    let q := p.withNodes r.1.nodes
    match r.1.stopped with
    | some cursor => some ({ q with requestedChanges := cursor }, r.1.msgs, true)
    | none =>
      let q := { q with astate := .waiting }
      if r.2 = false then some (q, r.1.msgs ++ flush tx r.1.gap, false)
      else if active then some (q.sfwAnnounce, r.1.msgs ++ flush tx r.1.gap, false)
      else some (q.withNodes (fragmentsUnderway r.1.nodes), r.1.msgs ++ flush tx r.1.gap, false)
  else some (p, [], false)

/-! ## Restarting -/

/-- Has the change been sent and not yet been acknowledged? -/
def inTransit (state : ChangeState) : Bool := state == .requested || state == .underway || state == .unacked

def sfwRelReset (p : RemReader) (rhTimer : Bool) (cached : Cached) : RemReader :=
  let p := { p with tstate := .idle, astate := .waiting, newSnr := 0, peerAlive := false, unsentChanges := none,
                    requestedChanges := none }
  let p : RemReader :=
    if p.durable then { p with changes := .empty, newSnr := 1 }.replay rhTimer cached
    else
      { p with
        changes := ⟨p.changes.nodes.map fun rp => if inTransit rp.state then { rp with state := .unsent } else rp,
          p.changes.nchanges⟩
        unsentChanges := (p.changes.nodes.find? fun rp => inTransit rp.state).map (·.addr) }
  if p.unsentChanges ≠ none then { p with nackTimer := some .walive } else p

def sfwRestart (p : RemReader) (rhTimer : Bool) (cached : Cached) : RemReader := p.sfwRelReset rhTimer cached

/-! ## ACKNACK -/

variable (p : RemReader)

def sfwRelSendAlive (snrMin : Int) : RemReader × List TxMsg :=
  if p.lastSeqnr < snrMin then (p, [.heartbeat snrMin snrMin true true])
  else if p.unsentChanges ≠ none then
    if p.pushMode then ({ p with tstate := .pushing }, []) else (p.sfwAnnounce, [])
  else (p, [.heartbeat snrMin p.lastSeqnr false false])

def snrMin (cached : Cached) : Int := (cached.head?.map (·.1)).getD (p.lastSeqnr + 1)

/-- `SEQNR_DELTA`, on two words. -/
def snrDelta (s1 s2 : Int) : Nat :=
  if s2 / 2 ^ 32 ≤ s1 / 2 ^ 32 + 1 then ((s2 - s1) % 2 ^ 32).toNat else 2 ^ 32 - 1

/-- How many numbers an immediate GAP has to cover when the requested changes are before the list. -/
def nGapBits (ap : AckNackSMsg) : Nat :=
  match p.changes.nodes with
  | [] =>
    if ap.bitmap.length ≠ 0 then ap.bitmap.length
    else if ap.base < p.newSnr then snrDelta ap.base p.newSnr
    else 0
  | head :: _ => if ap.base < head.first then snrDelta ap.base head.first else 0

def immediateGap (ap : AckNackSMsg) (nGapBits : Nat) : TxMsg :=
  let n := if ap.bitmap.length ≠ 0 ∧ ap.bitmap.length < nGapBits then ap.bitmap.length else min nGapBits 256
  .gap ap.base ap.base (if ap.bitmap.length ≠ 0 then ap.bitmap.take n else List.replicate n true)

def listEnd : Int := (p.changes.nodes.getLast?.map fun tail => tail.last + 1).getD p.newSnr

def implicitGap (ap : AckNackSMsg) : RemReader :=
  let max := ap.base + ap.bitmap.length
  let snr := p.listEnd
  if ¬ max < snr ∧ snr < p.lastSeqnr then
    match p.changes.nodes.getLast? with
    | some tail =>
      if tail.relevant = false ∧ tail.state = .unsent then
        p.withNodes (p.changes.nodes.dropLast ++ [tail.setLast p.lastSeqnr])
      else
        let q := p.changeEnqueueGap snr p.lastSeqnr .unsent
        if q.unsentChanges = none then { q with unsentChanges := some (p.gapAddr .unsent) } else q
    | none =>
      let q := p.changeEnqueueGap snr p.lastSeqnr .unsent
      if q.unsentChanges = none then { q with unsentChanges := some (p.gapAddr .unsent) } else q
  else p

end RemReader

/-- The walk of `sfw_rel_acknack` over a range: the nodes split off, the node it is at, the next of the pool, and the
first node found to be requested. -/
structure RangeWalk where
  done : List RrRef
  rp : RrRef
  nextAddr : Nat
  requested : Option Nat
  ackRange : Bool
  snr : Int

def RangeWalk.split (w : RangeWalk) (state : ChangeState) : RangeWalk :=
  if w.rp.last < w.snr then { w with rp := { w.rp with state } }
  else
    { w with
      done := w.done ++ [{ w.rp with state, u := .range w.rp.first (w.snr - 1) }]
      rp := .gap w.nextAddr w.snr w.rp.last w.rp.state
      nextAddr := w.nextAddr + 1 }

/-- One bit of the bitmap; where its value changes the range is split. -/
def RangeWalk.bit (w : RangeWalk) (set : Bool) : RangeWalk :=
  let w :=
    if set then if w.ackRange then { w.split .acked with ackRange := false } else w
    else if w.ackRange then w
    else { w.split .requested with ackRange := true, requested := w.requested.or (some w.rp.addr) }
  { w with snr := w.snr + 1 }

def RangeWalk.bits : RangeWalk → List Bool → RangeWalk
  | w, [] => w
  | w, set :: rest =>
    let w := w.bit set
    if w.rp.last < w.snr then w else w.bits rest

structure Acked where
  nodes : List RrRef
  nextAddr : Nat
  requested : Option Nat

def RangeWalk.start (ap : AckNackSMsg) (nextAddr : Nat) (rp : RrRef) : RangeWalk :=
  { done := [], rp, nextAddr, requested := none
    ackRange := if rp.first < ap.base then true else !(ap.bitmap.getD (rp.first - ap.base).toNat false)
    snr := max rp.first ap.base }

def RangeWalk.finish (w : RangeWalk) : Acked :=
  if w.ackRange then
    if w.rp.last < w.snr then ⟨w.done ++ [{ w.rp with state := .acked }], w.nextAddr, w.requested⟩
    else
      let w := w.split .acked
      ⟨w.done ++ [w.rp], w.nextAddr, w.requested⟩
  else ⟨w.done ++ [{ w.rp with state := .requested }], w.nextAddr, w.requested.or (some w.rp.addr)⟩

def ackRangeNodes (ap : AckNackSMsg) (nextAddr : Nat) (rp : RrRef) : Acked :=
  ((RangeWalk.start ap nextAddr rp).bits (ap.bitmap.drop (rp.first - ap.base).toNat)).finish

def seqnrInset (snr : Int) (ap : AckNackSMsg) : Bool := ap.bitmap.getD (snr - ap.base).toNat false

def acknowledge (rp : RrRef) : RrRef := { rp with state := .acked, fragments := rp.fragments && !rp.relevant }

/-- What an ACKNACK says about one node, which may become several. -/
def ackNode (ap : AckNackSMsg) (nextAddr : Nat) (rp : RrRef) : Acked :=
  if rp.state = .acked then ⟨[rp], nextAddr, none⟩
  else if rp.last < ap.base then ⟨[acknowledge rp], nextAddr, none⟩
  else if rp.first < ap.base + ap.bitmap.length then
    if rp.relevant then
      if seqnrInset rp.first ap then ⟨[{ rp with state := .requested }], nextAddr, some rp.addr⟩
      else ⟨[acknowledge rp], nextAddr, none⟩
    else ackRangeNodes ap nextAddr rp
  else ⟨[rp], nextAddr, none⟩

def ackNodes (ap : AckNackSMsg) : Nat → List RrRef → Acked
  | nextAddr, [] => ⟨[], nextAddr, none⟩
  | nextAddr, rp :: rest =>
    let r := ackNode ap nextAddr rp
    let q := ackNodes ap r.nextAddr rest
    ⟨r.nodes ++ q.nodes, q.nextAddr, r.requested.or q.requested⟩

def nextOf (rest : List RrRef) : Option Nat := rest.head?.map (·.addr)

namespace RemReader

/-- `change_remove_ref` for the head `rp` of the list.  With `rr_requested_changes` on `rp` it looks at the node behind
`rp` again and again, until that is a requested sample. -/
def changeRemoveRef (p : RemReader) (rp : RrRef) (rest : List RrRef) : Option RemReader :=
  let requested :=
    if p.requestedChanges = some rp.addr then
      match rest with
      | [] => some none
      | next :: _ => if next.relevant ∧ next.state = .requested then some (some next.addr) else none
    else some p.requestedChanges
  requested.map fun requested =>
    { p with
      changes := ⟨rest, p.changes.nchanges - 1⟩
      unsentChanges := if p.unsentChanges = some rp.addr then nextOf rest else p.unsentChanges
      requestedChanges := requested
      newSnr := if p.changes.nchanges = 1 then rp.last else p.newSnr }

def removeAcked (p : RemReader) : List RrRef → Option RemReader
  | [] => some p
  | rp :: rest => if rp.state = .acked then (p.changeRemoveRef rp rest).bind fun q => q.removeAcked rest else some p

variable (p : RemReader)

def sfwRelNackRespTo : RemReader := { p with astate := .repairing }

def sfwRelAllAcked : RemReader := { p with tstate := .idle, nackTimer := none, astate := .waiting }

/-- Requested changes start a repair, at once or after the response delay. -/
def mustRepair : RemReader :=
  if p.requestedChanges ≠ none ∧ p.astate ≠ .mustRepair then
    let p := { p with astate := .mustRepair }
    if p.nackRespDelay ≠ 0 then { p with nackTimer := some .nackRsp } else p.sfwRelNackRespTo
  else p

def ackUpdate (ap : AckNackSMsg) : Option RemReader :=
  let r := ackNodes ap p.nextAddr p.changes.nodes
  let p := { p with
    changes := ⟨r.nodes, p.changes.nchanges + (r.nodes.length - p.changes.nodes.length)⟩
    nextAddr := r.nextAddr
    requestedChanges := r.requested }
  p.mustRepair.removeAcked r.nodes

def sfwRelAcknack (rhTimer : Bool) (cached : Cached) (ap : AckNackSMsg) (final : Bool) :
    Option (RemReader × List TxMsg) :=
  if ap.count = p.lastAck then some (p, [])
  else
    let wakeup := !p.peerAlive
    let p := if wakeup then { p with peerAlive := true, nackTimer := none } else p
    let alive := ap.base = 0 ∧ ap.bitmap.length = 0
    let p := { p with lastAck := ap.count }
    if wakeup ∧ p.changes.nchanges ≠ 0 ∧ (alive ∨ p.unsentChanges ≠ none) then
      some ({ p with tstate := .pushing }, [])
    else if alive then
      if !final ∧ p.tstate = .idle then some (p.sfwRelSendAlive (p.snrMin cached)) else some (p, [])
    else
      let n := p.nGapBits ap
      if n ≠ 0 ∧ p.durable then some (p.sfwRestart rhTimer cached, [])
      else
        ((p.implicitGap ap).ackUpdate ap).map fun q =>
          (if q.changes.nodes = [] ∧ n = 0 then q.sfwRelAllAcked else q, if n ≠ 0 then [immediateGap ap n] else [])

end RemReader

/-! ## Removing a change -/

def holds (rp : RrRef) (snr : Int) : Bool := decide (rp.first ≤ snr ∧ snr ≤ rp.last)

/-- The node that holds a number, with those before and after it. -/
def findChange (nodes : List RrRef) (snr : Int) : Option (List RrRef × RrRef × List RrRef) :=
  match nodes, nodes.getLast? with
  | fp :: rest, some lp =>
    if snr < fp.first then none
    else if holds fp snr then some ([], fp, rest)
    else if lp.last < snr then none
    else if holds lp snr then some (nodes.dropLast, lp, [])
    else match rest.span fun rp => !holds rp snr with
      | (pre, rp :: post) => some (fp :: pre, rp, post)
      | (_, []) => none
  | _, _ => none

def joinPrev (pre : List RrRef) (rp : RrRef) (snr : Int) : List RrRef × RrRef :=
  match pre.getLast? with
  | some prev => if prev.relevant then (pre, rp) else (pre.dropLast, prev.setLast snr)
  | none => (pre, rp)

def joinNext (rp : RrRef) (post : List RrRef) : List RrRef :=
  match post with
  | next :: rest => if next.relevant then rp :: post else next.setFirst rp.first :: rest
  | [] => [rp]

/-- A node that became irrelevant is joined with the gaps next to it. -/
def joinGaps (pre : List RrRef) (rp : RrRef) (post : List RrRef) (snr : Int) : List RrRef :=
  let r := joinPrev pre rp snr
  r.1 ++ joinNext r.2 post

namespace RemReader

/-- `sfw_rel_rem_change`.  It does not ask whether the node is a sample: `hc_change_free` gets whatever the union holds,
and the node becomes the range of `snr` alone. -/
def sfwRelRemChange (p : RemReader) (snr : Int) : RemReader :=
  match findChange p.changes.nodes snr with
  | none => p
  | some (pre, rp, post) =>
    let nodes := (joinGaps pre { rp with fragments := false, u := .range snr snr } post snr).dropWhile (!·.relevant)
    { p with
      changes := ⟨nodes, p.changes.nchanges - (p.changes.nodes.length - nodes.length)⟩
      unsentChanges :=
        if p.unsentChanges = some rp.addr then (post.find? (·.relevant)).map (·.addr) else p.unsentChanges
      requestedChanges :=
        if p.astate = .repairing ∧ p.requestedChanges = some rp.addr then
          (post.find? (·.state == .requested)).map (·.addr)
        else p.requestedChanges
      freed := p.freed ++ [(rp.u, snr)] }

/-! ## Timers -/

/-- The timer of the proxy runs out. -/
def timeout (p : RemReader) (cached : Cached) : RemReader × List TxMsg :=
  match p.nackTimer with
  | some .walive => p.sfwRelSendAlive (p.snrMin cached)
  | some .nackRsp => ({ p with nackTimer := none }.sfwRelNackRespTo, [])
  | none => (p, [])

end RemReader

/-! ## What can happen to a reader proxy

The events of a proxy's life at the writer, what holds of them by the time they get here, and runs from
`sfw_rel_start`.
-/

/-- One event at a reader proxy.  `rhTimer` says whether the writer's heartbeat timer runs, `cached` what the writer's
cache holds, `active` and `tx` are the transmit side. -/
inductive WriterEvent where
  | newChange (snr : Int) (res : FilterRes) (rhTimer : Bool)
  | remChange (snr : Int)
  | acknack (ap : AckNackSMsg) (final rhTimer : Bool) (cached : Cached)
  | sendData (active : Bool) (tx : Int → TxRes)
  | restart (rhTimer : Bool) (cached : Cached)
  | timeout (cached : Cached)

def Cached.Valid (cached : Cached) (lastSeqnr : Int) : Prop :=
  cached.IsChain (fun c d => c.1 < d.1) ∧ ∀ c ∈ cached, c.1 ≤ lastSeqnr

/-- What the checks of the receiver let through. -/
def AckNackSMsg.Valid (ap : AckNackSMsg) : Prop :=
  ap.bitmap.length ≤ 256 ∧ (ap.bitmap ≠ [] → 0 < ap.base)

/-- The writer numbers its changes upwards, removes what it has put in its cache, and takes valid ACKNACKs only. -/
def WriterEvent.Valid (p : RemReader) : WriterEvent → Prop
  | .newChange snr _ _ => p.lastSeqnr < snr
  | .remChange snr => snr ≤ p.lastSeqnr
  | .acknack ap _ _ cached => ap.Valid ∧ cached.Valid p.lastSeqnr
  | .sendData _ _ => True
  | .restart _ cached => cached.Valid p.lastSeqnr
  | .timeout cached => cached.Valid p.lastSeqnr

instance Cached.decidableValid (cached : Cached) (lastSeqnr : Int) : Decidable (cached.Valid lastSeqnr) := by
  unfold Cached.Valid; infer_instance
instance AckNackSMsg.decidableValid (ap : AckNackSMsg) : Decidable ap.Valid := by
  unfold AckNackSMsg.Valid
  infer_instance

instance WriterEvent.decidableValid (p : RemReader) : (e : WriterEvent) → Decidable (e.Valid p)
  | .newChange snr _ _ => inferInstanceAs (Decidable (p.lastSeqnr < snr))
  | .remChange snr => inferInstanceAs (Decidable (snr ≤ p.lastSeqnr))
  | .acknack ap _ _ cached => inferInstanceAs (Decidable (ap.Valid ∧ cached.Valid p.lastSeqnr))
  | .sendData _ _ => .isTrue trivial
  | .restart _ cached => inferInstanceAs (Decidable (cached.Valid p.lastSeqnr))
  | .timeout cached => inferInstanceAs (Decidable (cached.Valid p.lastSeqnr))

def RemReader.step (p : RemReader) : WriterEvent → Option RemReader
  | .newChange snr res rhTimer => some ({ p with lastSeqnr := snr }.proxyAddChange rhTimer (snr, res))
  | .remChange snr => some (p.sfwRelRemChange snr)
  | .acknack ap final rhTimer cached => (p.sfwRelAcknack rhTimer cached ap final).map (·.1)
  | .sendData active tx => (p.sfwRelSendData active tx).map (·.1)
  | .restart rhTimer cached => some (p.sfwRestart rhTimer cached)
  | .timeout cached => some (p.timeout cached).1

end Qeo.Rtps
