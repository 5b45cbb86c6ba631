import QeoCore.Wildcard
import Mathlib.Data.String.Basic
/-!
# PolicyCache — the rules of a security policy, and how they are completed

The parser fills the cache: a topic table, and for each participant its rules, which are coarse grained (may it read,
may it write) or fine grained (from whom, to whom).  `finalize` makes the topics that some fine grained rule concerns
fine grained for everybody, expands the wildcard rules to the topics of the policy, and turns coarse grained rules of
fine grained topics into lists of all users.

Hash tables are lists in the order of insertion, in which the source walks them; a pointer to a topic is its name.
-/
namespace Qeo.Security

open Wildcard

abbrev Name := List Char

inductive Dir where
  | read | write
  deriving DecidableEq

structure Perms where
  read : Bool
  write : Bool
  deriving DecidableEq

def Perms.get (perms : Perms) : Dir → Bool
  | .read => perms.read
  | .write => perms.write

def Perms.only : Dir → Perms
  | .read => ⟨true, false⟩
  | .write => ⟨false, true⟩

/-- The union of a rule entry, with its flag.  The permissions share their bytes with the head of the read list, so a
section for reading that is added to a coarse grained entry destroys them. -/
inductive RuleU where
  | coarse (perms : Option Perms)
  | fine (read write : List Name)
  deriving DecidableEq

structure RuleEntry where
  topic : Name
  u : RuleU
  deriving DecidableEq

structure TopicDesc where
  name : Name
  coarseGrained : Bool
  deriving DecidableEq

structure ParticipantDesc where
  tag : Name
  ruleEntries : List RuleEntry
  deriving DecidableEq

structure Cache where
  topics : List TopicDesc
  participants : List ParticipantDesc
  deriving DecidableEq

inductive Fail where
  | einval | fault
  deriving DecidableEq

instance decEqExcept {ε α : Type*} [DecidableEq ε] [DecidableEq α] : DecidableEq (Except ε α)
  | .ok a, .ok b => decidable_of_iff (a = b) (by simp)
  | .error a, .error b => decidable_of_iff (a = b) (by simp)
  | .ok _, .error _ => isFalse nofun
  | .error _, .ok _ => isFalse nofun

/-! ## Filling the cache -/

def isUser (participant : Name) : Bool := participant.tails.any (['u', 'i', 'd', ':'].isPrefixOf ·)

def addParticipantListNode (head : List Name) (participant : Name) : List Name :=
  if isUser participant then participant :: head else head

namespace RuleU

def addSection (u : RuleU) (perms : Perms) (participant : Name) : RuleU :=
  match u with
  | fine r w =>
    if perms.write then fine r (addParticipantListNode w participant)
    else fine (addParticipantListNode r participant) w
  | coarse p => if perms.write || !isUser participant then coarse p else coarse none

end RuleU

def RuleEntry.update (topic : Name) (f : RuleU → RuleU) (e : RuleEntry) : RuleEntry :=
  if e.topic = topic then { e with u := f e.u } else e

namespace ParticipantDesc

variable (part : ParticipantDesc)

def find (topic : Name) : Option RuleEntry := part.ruleEntries.find? (·.topic == topic)

def modify (topic : Name) (f : RuleU → RuleU) : ParticipantDesc :=
  { part with ruleEntries := part.ruleEntries.map (RuleEntry.update topic f) }

def append (e : RuleEntry) : ParticipantDesc :=
  { part with ruleEntries := part.ruleEntries ++ [e] }

def addCoarseGrained (topic : Name) (perms : Perms) (existingIsProblem : Bool) :
    Except Fail ParticipantDesc :=
  match part.find topic with
  | some _ => if existingIsProblem then .error .einval else .ok part
  | none => .ok (part.append ⟨topic, .coarse (some perms)⟩)

def addFineGrainedRuleSection (topic : Name) (perms : Perms) (participantSpecifier : Name) :
    ParticipantDesc :=
  match part.find topic with
  | some _ => part.modify topic (·.addSection perms participantSpecifier)
  | none => part.append ⟨topic, (RuleU.fine [] []).addSection perms participantSpecifier⟩

end ParticipantDesc

def addTopic (topics : List TopicDesc) (topicName : Name) (coarseGrained : Bool) : List TopicDesc :=
  match topics.find? (·.name == topicName) with
  | none => topics ++ [⟨topicName, coarseGrained⟩]
  | some topic =>
    if topic.coarseGrained != coarseGrained then
      topics.map fun t => if t.name = topicName then { t with coarseGrained := false } else t
    else topics

def onLast (tag : Name) (f : ParticipantDesc → Except Fail ParticipantDesc) :
    List ParticipantDesc → Option (Except Fail (List ParticipantDesc))
  | [] => none
  | p :: ps =>
    match onLast tag f ps with
    | some r => some (r.map (p :: ·))
    | none => if p.tag = tag then some ((f p).map (· :: ps)) else none

namespace Cache

def onParticipant (cache : Cache) (tag : Name) (f : ParticipantDesc → Except Fail ParticipantDesc) :
    Cache × Option Fail :=
  match onLast tag f cache.participants with
  | none => (cache, some .einval)
  | some (.error e) => (cache, some e)
  | some (.ok participants) => ({ cache with participants := participants }, none)

def addParticipantTag (cache : Cache) (tag : Name) : Cache :=
  { cache with participants := cache.participants ++ [⟨tag, []⟩] }

def addCoarseGrainedRule (cache : Cache) (tag topicName : Name) (perms : Perms) : Cache × Option Fail :=
  { cache with topics := addTopic cache.topics topicName true }.onParticipant tag fun part =>
    part.addCoarseGrained topicName perms true

def addFineGrainedRuleSection (cache : Cache) (tag topicName : Name) (perms : Perms) (participantSpecifier : Name) :
    Cache × Option Fail :=
  { cache with topics := addTopic cache.topics topicName false }.onParticipant tag fun part =>
    .ok (part.addFineGrainedRuleSection topicName perms participantSpecifier)

end Cache

/-! ## Completing the rules -/

/-- The sign of a comparison. -/
def strcmp (a b : Name) : Int := if a < b then -1 else if a = b then 0 else 1

/-- Longer names first. -/
def topicPrefixLengthSort (t1 t2 : Name) : Int :=
  if t1.length = t2.length then strcmp t1 t2 else if t1.length < t2.length then 1 else 0

def topicPrefixLengthInverseSort (t1 t2 : Name) : Int :=
  if t1.length = t2.length then strcmp t2 t1 else if t2.length < t1.length then 1 else 0

/-- `HASH_SORT`, a stable sort. -/
def hashSort {α : Type*} (key : α → Name) (cmp : Name → Name → Int) (l : List α) : List α :=
  l.insertionSort fun a b => cmp (key a) (key b) ≤ 0

/-- Is the name one that the pattern stands for? -/
def expands (pattern name : Name) : Bool := '*' ∈ pattern && (stem '*' pattern).isPrefixOf name

def RuleEntry.isMatch (topic : Name) (e : RuleEntry) : Bool := e.topic == topic || expands e.topic topic

def findMatch (ruleEntries : List RuleEntry) (topic : Name) : Option (RuleEntry × Bool) :=
  (ruleEntries.find? (RuleEntry.isMatch topic)).map fun e => (e, e.topic != topic)

def completeTopicsFrom (fineSeen : List Name) : List TopicDesc → List TopicDesc
  | [] => []
  | topic :: rest =>
    let coarse := topic.coarseGrained && !fineSeen.any (expands · topic.name)
    ⟨topic.name, coarse⟩ ::
      completeTopicsFrom (if !coarse && '*' ∈ topic.name then topic.name :: fineSeen else fineSeen) rest

def completeTopics (topics : List TopicDesc) : List TopicDesc :=
  completeTopicsFrom [] (hashSort TopicDesc.name topicPrefixLengthInverseSort topics)

def allParticipants (tags : List Name) : List Name := tags.foldl addParticipantListNode []

def convertCoarseToFine (tags : List Name) (perms : Perms) : RuleU :=
  .fine (if perms.read then allParticipants tags else []) (if perms.write then allParticipants tags else [])

namespace ParticipantDesc

def expandFine (part : ParticipantDesc) (topic : Name) (read write : List Name) : ParticipantDesc :=
  write.foldl (fun part n => part.addFineGrainedRuleSection topic (Perms.only .write) n)
    (read.foldl (fun part n => part.addFineGrainedRuleSection topic (Perms.only .read) n) part)

/-- The rule of a participant for a topic, made from the longest pattern that matches. -/
def completeRule (tags : List Name) (part : ParticipantDesc) (topic : TopicDesc) : Except Fail ParticipantDesc :=
  match findMatch part.ruleEntries topic.name with
  | none => .ok part
  | some (⟨_, .coarse none⟩, wcExpansion) => if wcExpansion || !topic.coarseGrained then .error .fault else .ok part
  | some (⟨_, .coarse (some perms)⟩, wcExpansion) => do
    let part ← if wcExpansion then part.addCoarseGrained topic.name perms true else .ok part
    if topic.coarseGrained then return part
    else return part.modify topic.name fun _ => convertCoarseToFine tags perms
  | some (⟨_, .fine read write⟩, wcExpansion) =>
    .ok (if wcExpansion then part.expandFine topic.name read write else part)

def sortRules (part : ParticipantDesc) : ParticipantDesc :=
  { part with ruleEntries := hashSort RuleEntry.topic topicPrefixLengthSort part.ruleEntries }

def completeRules (tags : List Name) (topics : List TopicDesc) (part : ParticipantDesc) :
    Except Fail ParticipantDesc :=
  topics.foldlM (completeRule tags) part.sortRules

end ParticipantDesc

namespace Cache

/-- Each participant gets a rule for every topic. -/
def finalize (cache : Cache) : Except Fail Cache := do
  let topics := hashSort TopicDesc.name topicPrefixLengthSort (completeTopics cache.topics)
  let tags := cache.participants.map (·.tag)
  let participants ← cache.participants.mapM fun part => do
    return (← part.completeRules tags topics).sortRules
  return ⟨topics, participants⟩

end Cache

/-! ## Asking for rules -/

/-- A rule as it is handed to the caller of `get_topic_rules`. -/
structure Report where
  participantTag : Name
  topicName : Name
  selector : Perms
  lists : Option (List Name × List Name)
  deriving DecidableEq

def reportEntry (tag topicName : Name) (selectorMask mask : Perms) : RuleU → Except Fail (List Report × Perms)
  | .coarse none => .error .fault
  | .coarse (some perms) =>
    let mask := ⟨mask.read || (perms.read && selectorMask.read), mask.write || (perms.write && selectorMask.write)⟩
    .ok (if mask = ⟨false, false⟩ then [] else [⟨tag, topicName, mask, none⟩], mask)
  | .fine r w =>
    .ok (if selectorMask = ⟨false, false⟩ then [] else [⟨tag, topicName, selectorMask, some (r, w)⟩], selectorMask)

def reportAll (tag : Name) (selectorMask mask : Perms) : List RuleEntry → Except Fail (List Report × Perms)
  | [] => .ok ([], mask)
  | e :: es => do
    let (out, _) ← reportEntry tag e.topic selectorMask mask e.u
    let (rest, mask) ← reportAll tag selectorMask ⟨false, false⟩ es
    return (out ++ rest, mask)

def reportParticipant (participantId topicName : Option Name) (selectorMask mask : Perms) (part : ParticipantDesc) :
    Except Fail (List Report × Perms) :=
  if participantId.all (· == part.tag) then
    match topicName with
    | some t =>
      match findMatch part.ruleEntries t with
      | some (e, _) => reportEntry part.tag t selectorMask mask e.u
      | none => .ok ([], mask)
    | none => reportAll part.tag selectorMask mask part.ruleEntries
  else .ok ([], mask)

def reportParticipants (participantId topicName : Option Name) (selectorMask : Perms) :
    Perms → List ParticipantDesc → Except Fail (List Report)
  | _, [] => .ok []
  | mask, part :: rest => do
    let (out, mask) ← reportParticipant participantId topicName selectorMask mask part
    return out ++ (← reportParticipants participantId topicName selectorMask mask rest)

def Cache.getTopicRules (cache : Cache) (participantId topicName : Option Name) (selectorMask : Perms) :
    Except Fail (List Report) :=
  reportParticipants participantId topicName selectorMask ⟨false, false⟩ cache.participants

end Qeo.Security
