import QeoCore.ForwardLoop
/-!
# ForwardLearn — what a forwarder learns of its sources, and how it forgets (rtps_fwd.c, rtps_ft.c)
-/
namespace Qeo.Forward

open Trace

def agePeriod : Nat := 5

@[simp] theorem put_self (t : Table) (pre : List UInt8) (p : FTEntry) : put t pre p pre = some p := if_pos rfl

theorem put_ne (h : q ≠ pre) : put t pre p q = t q := if_neg h

variable {env : Learning} {pre : List UInt8} {src : Locator} {t : Table}

/-! ## The next hop -/

/-- The entry that a participant behind `src` is to be linked to. -/
def nextHop (env : Learning) (t : Table) (pre : List UInt8) (src : Locator) : Option (List UInt8) :=
  if src.kind &&& kindsTcp = 0 then none
  else ((env.dstPrefix src.handle).map (guidFinalize · env.domainId env.participantId)).filter fun q =>
    pre.take 11 ≠ q.take 11 ∧ (t q).isSome

def Routed (env : Learning) (t : Table) (pre : List UInt8) (src : Locator) : Prop :=
  let t' := fwdLearnSource env pre none .metaMcast src t
  ∃ p, t' pre = some p ∧ p.parent = nextHop env t pre src ∧ ∀ q, (nextHop env t pre src).bind t = some q →
    ∀ m reply, ftGetLocators t' p m reply = q.locs m reply

/-- The entry that a new one is linked to, if any. -/
def linked (env : Learning) (t : Table) (pre : List UInt8) (src : Locator) : Option (List UInt8) :=
  if src.kind &&& kindsTcp = 0 ∨ (env.dstPrefix src.handle).isSome ∨ pre.take 11 = env.stack.take 11 then none
  else (t env.stack).map fun _ => env.stack

theorem fwdLearnSource_new (hnew : t pre = none) (hl : env.participantLookup pre = none) :
    fwdLearnSource env pre none .metaMcast src t pre =
      some { newEntry env none with parent := linked env t pre src } := by
  unfold fwdLearnSource linked
  simp only [hnew, hl, Option.or_none, Option.isSome_none, Bool.false_and, Bool.false_eq_true, if_false,
    Option.bind_none, Option.isNone_none, Option.getD_none, metaMcastLearn, rtpsTcpPeer]
  cases hd : env.dstPrefix src.handle with
  | some dst => simp [newEntry, ftAdd]
  | none =>
    by_cases hs : pre.take 11 = env.stack.take 11
    · simp [hs, newEntry, ftAdd]
    have hstack : put t pre (newEntry env none) env.stack = t env.stack := by
      exact if_neg fun h => hs (congrArg _ h.symm)
    cases ht : t env.stack <;> by_cases hk : src.kind &&& kindsTcp = 0#32 <;> simp_all [newEntry, ftAdd]

/-- **A new participant is routed exactly if it is its own next hop**, and the stack names no other where no peer is
known. -/
theorem routed_iff (hnew : t pre = none) (hl : env.participantLookup pre = none) : Routed env t pre src ↔
    nextHop env t pre src = none ∧ (src.kind &&& kindsTcp ≠ 0 → env.dstPrefix src.handle = none →
      pre.take 11 = env.stack.take 11 ∨ t env.stack = none) := by
  have hlinked : linked env t pre src = none ↔ (src.kind &&& kindsTcp ≠ 0 → env.dstPrefix src.handle = none →
      pre.take 11 = env.stack.take 11 ∨ t env.stack = none) := by
    unfold linked
    split
    · rename_i h
      refine iff_of_true rfl fun hk hd => .inl ?_
      exact (h.resolve_left hk).resolve_left (by simp [hd])
    rename_i h
    simp only [not_or, Option.not_isSome_iff_eq_none] at h
    rw [Option.map_eq_none_iff]
    exact ⟨fun ht _ _ => .inr ht, fun hi => (hi h.1 h.2.1).resolve_left h.2.2⟩
  have hone : nextHop env t pre src ≠ none → linked env t pre src = none := by
    intro h
    refine if_pos ?_
    unfold nextHop at h
    cases hd : env.dstPrefix src.handle with
    | some dst => exact .inr (.inl rfl)
    | none => simp [hd] at h
  have hp := @fwdLearnSource_new env pre src t hnew hl
  rw [← hlinked]
  constructor
  · rintro ⟨p, hp', hpar, -⟩
    obtain rfl := Option.some.inj (hp.symm.trans hp')
    by_contra hn
    exact hn ⟨by_contra fun h => h (hpar ▸ hone h), by_contra fun h => h (hone (hpar ▸ h))⟩
  · rintro ⟨hn, hl⟩
    exact ⟨_, hp, hl.trans hn.symm, by simp [hn]⟩

def hub : List UInt8 := List.replicate 12 0

def connected : Learning where
  participantLookup := fun _ => none
  populateLocators := fun _ p => (p.locs, p.isLocal)
  directReply := fun _ _ _ => none
  replyLocators := fun _ => none
  domainId := 0
  participantId := 0
  dstPrefix := fun _ => some hub
  stack := hub

def hubOnly : Table := fun q => if q = hub then some (newEntry connected none) else none

theorem routed_neighbour : connected.participantLookup hub = none ∧ (connected.dstPrefix 1).isSome ∧
    Routed connected (fun _ => none) hub ⟨4, 7400, noAddress, 1⟩ :=
  ⟨rfl, rfl, (routed_iff rfl rfl).2 ⟨by decide, by decide⟩⟩

/-- **A participant behind the hub** is taken for a neighbour: a result of 0 says that the peer is known. -/
theorem not_routed : nextHop connected hubOnly (List.replicate 12 1) ⟨4, 7400, noAddress, 1⟩ = some hub ∧
    (fwdLearnSource connected (List.replicate 12 1) none .metaMcast ⟨4, 7400, noAddress, 1⟩ hubOnly
      (List.replicate 12 1)).map (·.parent) = some none :=
  ⟨by decide, by decide⟩

/-! ## Ageing -/

def outlives (p : FTEntry) : Bool := !p.age || agePeriod < p.ttl

/-- `ft_age`: the children of an entry go with it. -/
def ftAge (t : Table) : Table := fun pre =>
  ((t pre).filter fun p => outlives p && (p.parent.bind t).all outlives).map fun p =>
    { p with ttl := if p.age then p.ttl - agePeriod else p.ttl }

/-! ## Who makes and changes entries -/

def rfwdParticipantNew (env : Learning) (t : Table) (q : List UInt8) (pp : Participant) : Table :=
  put t q (fwdPopulateLocators env ((t q).getD (ftAdd 0 true)) pp)

/-- `rfwd_locator_add`, with the modes that the flags of the locator give. -/
def rfwdLocatorAdd (t : Table) (own : List UInt8) (id : Nat) (l : Locator) (modes : Mode → Bool) : Table :=
  let p := (t own).getD (ftAdd id false)
  let list (m : Mode) (r : Bool) : List Locator :=
    if modes m && !r && !(p.locs m r).contains l then p.locs m r ++ [l] else p.locs m r
  put t own { p with locs := list }

/-- The locators that are not for replies, of an existing entry. -/
def setLocators (t : Table) (own : List UInt8) (f : Mode → List Locator → List Locator) : Table := fun q =>
  if q = own then (t q).map fun p => { p with locs := fun m r => if r then p.locs m r else f m (p.locs m r) } else t q

def rfwdLocatorsUpdate (t : Table) (own : List UInt8) : Table := setLocators t own fun _ _ => []

def rfwdLocatorRemove (t : Table) (own : List UInt8) (l : Locator) (modes : Mode → Bool) : Table :=
  setLocators t own fun m ls => if modes m then ls.filter (· ≠ l) else ls

/-- The table, watched for one source.  `quiet` is not in the code: for how long nothing has come from it, or for how
long it has an entry. -/
structure Watch where
  table : Table
  running : Bool
  sinceAge : Nat
  quiet : Nat

inductive Happening where
  | elapse (seconds : Nat)
  | receive (fp : Forwarder) (msg : Message) (mode : Mode) (src : Locator)
  | participantNew (env : Learning) (q : List UInt8) (pp : Participant)
  | participantDispose (q : List UInt8)
  | locatorAdd (own : List UInt8) (id : Nat) (l : Locator) (modes : Mode → Bool)
  | locatorRemove (own : List UInt8) (l : Locator) (modes : Mode → Bool)
  | locatorsUpdate (own : List UInt8)
  | domainFinal (id : Nat)

/-- Who a message is from: the sender, or the first that an InfoSource in front of it names. -/
def origin (msg : Message) : List UInt8 :=
  ((msg.elements.head?.filter fun e => isInfoSource e && infoSourceSize < e.data.length).map (·.bytes 8 12)).getD
    msg.guidPrefix.1

def looped (fp : Forwarder) (msg : Message) : Bool :=
  msg.guidPrefix = fp.guidPrefix || msg.elements.head?.any fun e => isInfoSource e && (fwdCheckInfoSource fp e []).1

def Watch.change (s : Watch) (pre : List UInt8) (t : Table) (heard : Bool) : Watch :=
  { s with table := t, quiet := if heard || (s.table pre).isNone then 0 else s.quiet }

def watch (pre : List UInt8) (s : Watch) : Happening → Option Watch
  | .elapse d =>
    if agePeriod < s.sinceAge + d then none
    else
      let table := if s.running && s.sinceAge + d = agePeriod then ftAge s.table else s.table
      some ⟨table, s.running, (s.sinceAge + d) % agePeriod, s.quiet + d⟩
  | .receive fp msg mode src =>
    let table := (fwdParse { fp with table := s.table } msg true (some src) mode).table
    some (s.change pre table (origin msg = pre && !looped fp msg))
  | .participantNew env q pp => some (s.change pre (rfwdParticipantNew env s.table q pp) false)
  | .participantDispose q => some (s.change pre (ftDelete s.table q) false)
  | .locatorAdd own id l modes => some (s.change pre (rfwdLocatorAdd s.table own id l modes) false)
  | .locatorRemove own l modes => some (s.change pre (rfwdLocatorRemove s.table own l modes) false)
  | .locatorsUpdate own => some (s.change pre (rfwdLocatorsUpdate s.table own) false)
  | .domainFinal id => some { s with table := cleanEntries id s.table, running := false }

/-- An InfoSource stands in front.  The source sends no InfoReply and from a port, its next hop is not forgotten, and no
domain is closed. -/
def Refreshes (pre : List UInt8) (s : Watch) : Happening → Prop
  | .elapse _ => ((s.table pre).all fun p => (p.parent.bind s.table).all outlives) = true
  | .receive _ msg _ src => (∀ e ∈ msg.elements.tail, isInfoSource e = false) ∧
      (origin msg = pre → (∀ e ∈ msg.elements, isInfoReply e = false) ∧ src.port ≠ 0)
  | .domainFinal _ => False
  | _ => True

/-! ## What a message changes -/

/-- Of a message from `o`: only the entry of `o` has been changed, and an InfoReply been seen only if `reply`. -/
structure Learns (o : List UInt8) (t0 : Table) (reply : Bool) (st : Parse) : Prop where
  src : st.srcPrefix = o
  p : ∀ q, st.p = some q → q = o
  others : ∀ q, q ≠ o → st.table q = t0 q
  learned : st.learned = true → reply = true

variable {o q : List UInt8} {t0 : Table} {reply : Bool} {st : Parse} {fp : Forwarder} {h : Nat} {k : BitVec 32}
  {mode : Mode} {e : Element}

theorem Learns.start (hs : st.srcPrefix = o) (hp : st.p = none) (ht : st.table = t0) (hl : st.learned = false) :
    Learns o t0 reply st := by
  refine ⟨hs, fun q h => ?_, fun q _ => congrFun ht q, fun h => ?_⟩
  · cases hp.symm.trans h
  · cases hl.symm.trans h

theorem put_put (t : Table) (o : List UInt8) (p p' : FTEntry) : put (put t o p) o p' = put t o p' := by
  funext q
  by_cases hq : q = o
  · rw [hq, put_self, put_self]
  · rw [put_ne hq, put_ne hq, put_ne hq]

theorem metaMcastLearn_put (t : Table) (p : FTEntry) :
    ∃ p', p'.ttl = p.ttl ∧ metaMcastLearn env (put t o p) o p src = put t o p' := by
  unfold metaMcastLearn
  dsimp only
  split_ifs
  · exact ⟨p, rfl, rfl⟩
  · exact ⟨p, rfl, rfl⟩
  · exact ⟨{ p with parent := some (rtpsTcpPeer env src.handle).2 }, rfl, put_put t o p _⟩

/-- Learning a source sets its entry, with the full time to live. -/
theorem fwdLearnSource_put (pp : Option Participant) (t : Table) :
    ∃ p, p.ttl = maxFwdTtl ∧ fwdLearnSource env o pp mode src t = put t o p := by
  unfold fwdLearnSource
  extract_lets pp entry p
  have hp : p.ttl = maxFwdTtl := rfl
  split
  · exact ⟨p, hp, rfl⟩
  split
  · rename_i np _
    exact ⟨{ p with locs := fun m r => if m = mode ∧ r = true then [np] else p.locs m r }, hp, rfl⟩
  split
  · obtain ⟨p', hp', ht⟩ := metaMcastLearn_put t p
    exact ⟨p', hp'.trans hp, ht⟩
  · exact ⟨p, hp, rfl⟩

theorem fwdLearnInfoReply_other (hq : q ≠ o) (pp : Option Participant) :
    (fwdLearnInfoReply fp e o mode t pp).1 q = t q := by
  unfold fwdLearnInfoReply
  split
  · rfl
  dsimp only
  split
  · rfl
  · exact put_ne hq

namespace Learns

theorem dest (pre : List UInt8) (hs : Learns o t0 reply st) : Learns o t0 reply (fwdAddDest h k mode st pre) := by
  unfold fwdAddDest
  split
  · exact hs
  split
  · exact ⟨hs.src, hs.p, hs.others, hs.learned⟩
  split
  · exact hs
  extract_lets get mc uc
  split
  · exact hs
  · exact ⟨hs.src, hs.p, hs.others, hs.learned⟩

theorem source (add : Bool) (hs : Learns o t0 reply st) : Learns o t0 reply (lookupSource true add st) := by
  unfold lookupSource
  split
  · exact hs
  split
  · exact ⟨hs.src, fun q hq => Option.some.inj hq ▸ hs.src, hs.others, hs.learned⟩
  split
  · refine ⟨hs.src, fun q hq => Option.some.inj hq ▸ hs.src, fun q hq => ?_, hs.learned⟩
    exact (put_ne (hs.src ▸ hq)).trans (hs.others q hq)
  · exact hs

theorem marked (hs : Learns o t0 reply st) : Learns o t0 reply (markLocal st) := by
  unfold markLocal
  split
  · exact hs
  rename_i x hx
  refine ⟨hs.src, hs.p, fun q hq => ?_, hs.learned⟩
  exact (if_neg (hs.p x hx ▸ hq)).trans (hs.others q hq)

theorem endpoints (id : SubmsgId) (tp : Topic) (srcEid dstEid : EntityId) (hs : Learns o t0 reply st) :
    Learns o t0 reply (addEndpoints fp h k mode id tp srcEid dstEid st) := by
  unfold addEndpoints
  extract_lets eps st1
  have h1 : Learns o t0 reply st1 := by
    refine List.foldlRecOn eps _ hs fun st hs ep _ => ?_
    split_ifs
    · exact ⟨hs.src, hs.p, hs.others, hs.learned⟩
    · exact hs.dest ep.guidPrefix
    · exact hs
  split
  · split
    · exact h1
    refine List.foldlRecOn fp.peers _ h1 fun st hs pp _ => ?_
    split
    · exact hs.dest pp.1
    · exact hs
  · exact h1

end Learns

/-- The next state, of a message that goes on or ends. -/
def Next.Keeps (P : Parse → Prop) : Next → Prop
  | .more st | .stop st => P st
  | .looped _ => False

theorem parseEids_learns (dstOfs srcOfs : Nat) (hs : Learns o t0 reply st) :
    (parseEids fp true h k mode st e dstOfs srcOfs).Keeps (Learns o t0 reply) := by
  unfold parseEids
  extract_lets dstEid srcEid st1 st2 st3 uc
  have h2 : Learns o t0 reply st2 := Learns.source st1.udpSrc ⟨hs.src, hs.p, hs.others, hs.learned⟩
  split
  · have h3 : Learns o t0 reply st3 := by
      show Learns o t0 reply (if st2.udpSrc then markLocal st2 else st2)
      split
      · exact h2.marked
      · exact h2
    exact ⟨h3.src, h3.p, h3.others, h3.learned⟩
  split
  · exact ⟨h2.src, h2.p, h2.others, h2.learned⟩
  split
  · exact h2
  · exact h2.endpoints _ _ _ _

theorem parseElement_learns (he : isInfoSource e = false) (hr : isInfoReply e = true → reply = true)
    (hs : Learns o t0 reply st) : (parseElement fp true h k mode st e).Keeps (Learns o t0 reply) := by
  unfold parseElement
  split
  · exact hs
  rename_i hh
  simp only [Bool.not_eq_true', Bool.not_eq_false] at hh
  split
  · have hd : Learns o t0 reply (fwdAddDest h k mode (lookupSource true false st) (e.bytes 0 12)) :=
      (hs.source false).dest _
    exact ⟨hd.src, hd.p, hd.others, hd.learned⟩
  split
  · rename_i hi
    simp [isInfoSource, hh, hi] at he
  split
  · rename_i hi
    refine ⟨hs.src, hs.p, fun q hq => ?_, fun _ => hr (by simp [isInfoReply, hh, hi.1])⟩
    rw [← hs.others q hq]
    exact fwdLearnInfoReply_other (hs.src ▸ hq) st.srcP
  split
  · split
    · exact hs
    · exact hs
  split
  · exact hs
  · exact parseEids_learns _ _ hs

theorem parseLoop_learns : ∀ (l : List Element) {st : Parse}, (∀ e ∈ l, isInfoSource e = false) →
    (∀ e ∈ l, isInfoReply e = true → reply = true) → Learns o t0 reply st →
    ∃ st', parseLoop fp true h k mode l st = .ok st' ∧ Learns o t0 reply st'
  | [], st, _, _, hs => ⟨st, rfl, hs⟩
  | e :: l, st, he, hr, hs => by
    have hn : (parseElement fp true h k mode st e).Keeps (Learns o t0 reply) :=
      parseElement_learns (he e List.mem_cons_self) (hr e List.mem_cons_self) hs
    rw [parseLoop]
    cases hp : parseElement fp true h k mode st e with
    | more st' =>
      rw [hp] at hn
      exact parseLoop_learns l (List.forall_mem_cons.1 he).2 (List.forall_mem_cons.1 hr).2 hn
    | stop st' =>
      rw [hp] at hn
      exact ⟨st', rfl, hn⟩
    | looped st' =>
      rw [hp] at hn
      cases hn

theorem parseElement_source (he : isInfoSource e = true) : parseElement fp true h k mode st e =
    if (fwdCheckInfoSource fp e st.srcPrefix).1 then .looped st
    else .more { st with srcPrefix := (fwdCheckInfoSource fp e st.srcPrefix).2 } := by
  simp only [isInfoSource, Bool.and_eq_true, beq_iff_eq] at he
  unfold parseElement
  simp [he]

theorem fwdParse_looped (hl : looped fp msg = true) : (fwdParse fp msg true (some src) mode).table = fp.table := by
  unfold fwdParse
  extract_lets udp kind st
  split
  · rfl
  rename_i hne
  simp only [looped, Bool.or_eq_true, decide_eq_true_eq] at hl
  have hh := hl.resolve_left fun hc => hne ⟨rfl, hc⟩
  cases hel : msg.elements with
  | nil => simp [hel] at hh
  | cons e l =>
    rw [hel, List.head?_cons, Option.any_some, Bool.and_eq_true] at hh
    rw [parseLoop, parseElement_source hh.1, if_pos (show (fwdCheckInfoSource fp e st.srcPrefix).1 = true from hh.2)]

theorem fwdParse_learns (hm : ∀ e ∈ msg.elements.tail, isInfoSource e = false) (hl : looped fp msg = false)
    (hr : ∀ e ∈ msg.elements, isInfoReply e = true → reply = true) : ∃ st, Learns (origin msg) fp.table reply st ∧
      (fwdParse fp msg true (some src) mode).table =
        if st.learned = false ∧ src.port ≠ 0 then
          fwdLearnSource fp.toLearning (origin msg) st.srcP mode src st.table
        else st.table := by
  simp only [looped, Bool.or_eq_false_iff, decide_eq_false_iff_not] at hl
  unfold fwdParse
  extract_lets udp kind st
  rw [if_neg fun h => hl.1 h.2]
  obtain ⟨st', hp, hs⟩ : ∃ st',
      parseLoop fp true (((some src).map (·.handle)).getD 0) kind mode msg.elements st = .ok st' ∧
      Learns (origin msg) fp.table reply st' := by
    have hnone : Learns msg.guidPrefix.1 fp.table reply st := .start rfl rfl rfl rfl
    unfold origin
    cases hel : msg.elements with
    | nil => exact ⟨st, rfl, hnone⟩
    | cons e l =>
      rw [hel] at hm hr hl
      rw [List.head?_cons, Option.filter_some]
      by_cases he : isInfoSource e = true
      · have hc : (fwdCheckInfoSource fp e []).1 ≠ true := by simpa [he] using hl.2
        change (fwdCheckInfoSource fp e st.srcPrefix).1 ≠ true at hc
        rw [parseLoop, parseElement_source he, if_neg hc]
        refine parseLoop_learns l hm (List.forall_mem_cons.1 hr).2 (.start ?_ rfl rfl rfl)
        rw [he, Bool.true_and]
        show (if infoSourceSize < e.data.length then _ else _) = _
        by_cases hlen : infoSourceSize < e.data.length
        · rw [if_pos hlen, if_pos (decide_eq_true hlen)]
          rfl
        · rw [if_neg hlen, if_neg (by simpa using hlen)]
          rfl
      · rw [if_neg (by simp [he])]
        exact parseLoop_learns (e :: l) (List.forall_mem_cons.2 ⟨by simpa using he, hm⟩) hr hnone
  refine ⟨st', hs, ?_⟩
  rw [hp]
  dsimp only
  rw [hs.src]
  simp

/-! ## A run -/

structure Timely (pre : List UInt8) (s : Watch) : Prop where
  running : s.running = true
  sinceAge : s.sinceAge < agePeriod
  ttl : ∀ p, s.table pre = some p → p.age = true → 0 < p.ttl ∧ p.ttl + s.quiet ≤ maxFwdTtl + s.sinceAge ∧
    maxFwdTtl + s.sinceAge < p.ttl + s.quiet + agePeriod

/-- An entry keeps its age, and a new one has it all before it. -/
def Unaged (pre : List UInt8) (t t' : Table) : Prop :=
  ∀ p', t' pre = some p' → (∀ p, t pre = some p → p'.age = p.age ∧ p'.ttl = p.ttl) ∧ (t pre = none → p'.ttl = maxFwdTtl)

theorem Unaged.of_eq (h : t' pre = t pre) : Unaged pre t t' := by
  intro p' hp'
  rw [h] at hp'
  rw [hp']
  exact ⟨fun p hp => Option.some.inj hp ▸ ⟨rfl, rfl⟩, nofun⟩

theorem Unaged.put (hp : ∀ p', t o = some p' → p.age = p'.age ∧ p.ttl = p'.ttl)
    (hnew : t o = none → p.ttl = maxFwdTtl) :
    Unaged pre t (put t o p) := by
  by_cases hq : pre = o
  · subst hq
    intro p' hp'
    rw [put_self] at hp'
    cases hp'
    exact ⟨hp, hnew⟩
  · exact .of_eq (put_ne hq)

theorem Timely.change (h : Timely pre s) (hu : Unaged pre s.table t) : Timely pre (s.change pre t false) := by
  obtain ⟨hrun, hsince, httl⟩ := h
  refine ⟨hrun, hsince, fun p hp hage => ?_⟩
  have hk := hu p hp
  dsimp only [Watch.change]
  cases hold : s.table pre with
  | none => grind [maxFwdTtl, agePeriod]
  | some p0 => grind [maxFwdTtl, agePeriod]

theorem Timely.heard (h : Timely pre s) (ht : ∀ p, t pre = some p → p.ttl = maxFwdTtl) :
    Timely pre (s.change pre t true) := by
  obtain ⟨hrun, hsince, -⟩ := h
  refine ⟨hrun, hsince, fun p hp _ => ?_⟩
  rw [ht p hp]
  dsimp only [Watch.change]
  grind [maxFwdTtl, agePeriod]

theorem Timely.receive (h : Timely pre s) (hfp : fp.table = s.table) (hk : Refreshes pre s (.receive fp msg mode src)) :
    Timely pre (s.change pre (fwdParse fp msg true (some src) mode).table (origin msg = pre && !looped fp msg)) := by
  obtain ⟨hm, hown⟩ := hk
  cases hl : looped fp msg with
  | true =>
    rw [Bool.not_true, Bool.and_false]
    exact h.change (.of_eq (congrFun ((fwdParse_looped hl).trans hfp) pre))
  | false =>
    by_cases ho : origin msg = pre
    · obtain ⟨hrep, hport⟩ := hown ho
      obtain ⟨st, hst, ht⟩ := @fwdParse_learns src false fp mode msg hm hl fun e he hr =>
        (hrep e he).symm.trans hr
      obtain ⟨p, hp, hput⟩ := @fwdLearnSource_put fp.toLearning src (origin msg) mode st.srcP st.table
      rw [ht, if_pos ⟨by simpa using hst.learned, hport⟩, hput, ho, decide_eq_true rfl]
      exact h.heard fun p' hp' => by
        rw [put_self] at hp'
        exact Option.some.inj hp' ▸ hp
    · obtain ⟨st, hst, ht⟩ := @fwdParse_learns src true fp mode msg hm hl fun _ _ _ => rfl
      rw [decide_eq_false ho, Bool.false_and, ht]
      refine h.change (.of_eq ?_)
      rw [← hfp, ← hst.others pre (Ne.symm ho)]
      split
      · obtain ⟨p, -, hput⟩ := @fwdLearnSource_put fp.toLearning src (origin msg) mode st.srcP st.table
        exact (congrFun hput pre).trans (put_ne (Ne.symm ho))
      · rfl

theorem watch_elapse (hs : watch pre s (.elapse d) = some s') : s.sinceAge + d ≤ agePeriod ∧
    s' = ⟨if s.running && s.sinceAge + d = agePeriod then ftAge s.table else s.table, s.running,
      (s.sinceAge + d) % agePeriod, s.quiet + d⟩ := by
  rw [watch] at hs
  split at hs
  · cases hs
  · cases hs
    exact ⟨Nat.not_lt.1 ‹_›, rfl⟩

theorem unaged_setLocators (f : Mode → List Locator → List Locator) : Unaged pre t (setLocators t o f) := by
  by_cases hq : pre = o
  · intro p' hp'
    rw [setLocators, if_pos hq] at hp'
    obtain ⟨p, hp, rfl⟩ := Option.map_eq_some_iff.1 hp'
    rw [hp]
    exact ⟨fun p hp => Option.some.inj hp ▸ ⟨rfl, rfl⟩, nofun⟩
  · exact .of_eq (if_neg hq)

theorem unaged_ftDelete : Unaged pre t (ftDelete t o) := by
  intro p' hp'
  unfold ftDelete at hp'
  split at hp'
  · cases hp'
  · rw [(Option.filter_eq_some_iff.1 hp').1]
    exact ⟨fun p hp => Option.some.inj hp ▸ ⟨rfl, rfl⟩, nofun⟩

theorem Timely.step {e : Happening} (h : Timely pre s) (hk : Refreshes pre s e) (hs : watch pre s e = some s') :
    Timely pre s' := by
  cases e with
  | domainFinal id => cases hk
  | receive fp msg mode src =>
    cases hs
    exact h.receive rfl hk
  | participantNew env q pp =>
    cases hs
    refine h.change (.put (fun p' hp' => ?_) fun hp' => ?_)
    · rw [hp']
      exact ⟨rfl, rfl⟩
    · rw [hp']
      rfl
  | participantDispose q =>
    cases hs
    exact h.change unaged_ftDelete
  | locatorAdd own id l modes =>
    cases hs
    refine h.change (.put (fun p' hp' => ?_) fun hp' => ?_)
    · rw [hp']
      exact ⟨rfl, rfl⟩
    · rw [hp']
      rfl
  | locatorRemove own l modes =>
    cases hs
    exact h.change (unaged_setLocators _)
  | locatorsUpdate own =>
    cases hs
    exact h.change (unaged_setLocators _)
  | elapse d =>
    obtain ⟨hrun, hsince, httl⟩ := h
    obtain ⟨hd, rfl⟩ := watch_elapse hs
    refine ⟨hrun, Nat.mod_lt _ (by decide), fun p hp hage => ?_⟩
    dsimp only at hp ⊢
    split at hp
    · obtain ⟨p0, hp0, rfl⟩ := Option.map_eq_some_iff.1 hp
      obtain ⟨hp0, hlive⟩ := Option.filter_eq_some_iff.1 hp0
      grind [outlives, agePeriod]
    · grind [agePeriod]

def Watch.start : Watch := ⟨fun _ => none, true, 0, 0⟩

instance (pre : List UInt8) (s : Watch) (e : Happening) : Decidable (Refreshes pre s e) := by
  cases e <;> unfold Refreshes <;> infer_instance

def receiver : Forwarder :=
  { bareForwarder ⟨List.replicate 12 9, rfl⟩ with replyLocators := fun _ => some ([], []) }

/-- An announcement of `hub`, with what stands in front of it. -/
def announced (front : List Element) : Happening :=
  let msg := announcement ⟨hub, rfl⟩
  .receive receiver { msg with elements := front ++ msg.elements } .metaMcast ⟨1, 7400, noAddress, 0⟩

def replied : Happening := announced [⟨true, .infoReply, false, false, 4, List.replicate 4 0, fun _ => 0⟩]

end Qeo.Forward
