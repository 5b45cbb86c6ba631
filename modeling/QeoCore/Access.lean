import QeoCore.FirstMatch
/-!
# Access — the access database of the security plugin

A participant that the policy names is a rule; one that was admitted is a clone, which points to the rule that admitted
it; one that is still in the handshake points to itself.  Pointers are handles, which are never given twice.

Names are matched by `fnmatch` of the C library, of which nothing is assumed (`nmatch pattern name`).
-/
namespace Qeo.Access

open FirstMatch

abbrev Name := List Char

/-- What a rule allows. -/
structure Mode where
  create : Bool
  delete : Bool
  write : Bool
  read : Bool
  deriving DecidableEq

def Mode.all : Mode := ⟨true, true, true, true⟩

def Mode.none : Mode := ⟨false, false, false, false⟩

def anyDomain : Nat := 2 ^ 32 - 1

/-- A rule for topics or partitions, of a participant or of a domain, which does not use `id`.  Without a name it is for
everything. -/
structure Rule where
  index : Nat
  id : Nat
  name : Option Name
  mode : Mode
  blacklist : Bool
  refreshed : Bool
  deriving DecidableEq

/-- The rule that a new participant or domain has: everything, in every mode. -/
def Rule.empty : Rule where
  index := 0
  id := anyDomain
  name := none
  mode := .all
  blacklist := false
  refreshed := false

/-- `cloned` is the handle of the participant it points to. -/
structure Participant where
  handle : Nat
  permissionsHandle : Nat
  updatedPermHandle : Nat
  permissions : Nat
  name : Name
  key : List Nat
  cloned : Option Nat
  access : Nat
  blacklist : Bool
  topics : List Rule
  partitions : List Rule
  refreshed : Bool
  inputNumber : Nat
  deriving DecidableEq

structure Domain where
  handle : Nat
  domainId : Nat
  access : Nat
  exclusive : Bool
  topics : List Rule
  partitions : List Rule
  refreshed : Bool
  deriving DecidableEq

structure Db where
  participants : List Participant
  domains : List Domain
  numIds : Nat
  numDomains : Nat
  numPermissions : Nat
  topicCounter : Nat
  partitionCounter : Nat
  inputCounter : Nat
  deriving DecidableEq

def Db.empty : Db where
  participants := []
  domains := []
  numIds := 0
  numDomains := 0
  numPermissions := 0
  topicCounter := 0
  partitionCounter := 0
  inputCounter := 1

/-- `DS_SECRET`. -/
def secret : Nat := 2

/-- A new participant under its name. -/
def blank (handle : Nat) (name : Name) : Participant where
  handle := handle
  permissionsHandle := 0
  updatedPermHandle := 0
  permissions := 0
  name := name
  key := []
  cloned := none
  access := secret
  blacklist := false
  topics := [.empty]
  partitions := [.empty]
  refreshed := false
  inputNumber := 0

/-! ## Lists of rules -/

def hasWildcards : Option Name → Bool
  | none => false
  | some name => '*' ∈ name || '?' ∈ name

section
variable (rules : List Rule)

def addRule (index : Nat) : List Rule :=
  (if rules.head?.any (·.index == 0) then rules.eraseP (·.index == 0) else rules) ++
    [{ Rule.empty with index := index }]

def removeRule (index : Nat) : List Rule := rules.eraseP (·.index == index)

def setRule (index : Nat) (name : Option Name) (mode : Mode) (id : Nat) (blacklist : Bool) :
    List Rule :=
  rules.map fun r => if r.index = index then ⟨index, id, name, mode, blacklist, true⟩ else r

/-- The index of the rule with this name and mode; the rule for everything has none. -/
def ruleHandle (name : Option Name) (mode : Mode) : Option Nat :=
  (rules.find? fun r => r.name == name && r.mode == mode && r.index != 0).map (·.index)

/-- Rules that the update did not mention go. -/
def cleanupRules : List Rule :=
  rules.filterMap fun r =>
    if r.refreshed then some { r with refreshed := false } else if r.index = 0 then some r else none

end

/-- The loops of `optimize_db`: a rule without wildcards is moved to the head.  The list is what was moved, then what
was passed, then what is still to come. -/
def moveExact (moved passed : List Rule) : List Rule → List Rule
  | [] => moved ++ passed
  | r :: rest =>
    if hasWildcards r.name then moveExact moved (passed ++ [r]) rest else moveExact (r :: moved) passed rest

/-- Rules without wildcards come first. -/
def optimizeRules (fallback : List Rule) (rules : List Rule) : List Rule :=
  if rules = [] then fallback else moveExact [] [] rules

/-! ## Domains and participants -/

namespace Db

variable (db : Db)

def getParticipant (handle : Nat) : Option Participant := db.participants.find? (·.handle == handle)

def getDomain (handle : Nat) : Option Domain := db.domains.find? (·.handle == handle)

def modifyParticipant (handle : Nat) (f : Participant → Participant) : Db :=
  { db with participants := db.participants.map fun p => if p.handle = handle then f p else p }

def modifyDomain (handle : Nat) (f : Domain → Domain) : Db :=
  { db with domains := db.domains.map fun d => if d.handle = handle then f d else d }

def addDomain : Nat × Db :=
  (db.numDomains + 1, { db with
      domains := db.domains ++ [{
        handle := db.numDomains + 1, domainId := anyDomain, access := secret, exclusive := false
        topics := [.empty], partitions := [.empty], refreshed := false }]
      numDomains := db.numDomains + 1 })

def setDomainAccess (handle domainId access : Nat) (exclusive : Bool) : Db :=
  db.modifyDomain handle fun d =>
    { d with domainId := domainId, access := access, exclusive := exclusive, refreshed := true }

def domainHandle (domainId : Nat) : Option Nat :=
  (db.domains.find? (·.domainId == domainId)).map (·.handle)

def removeDomain (handle : Nat) : Db := { db with domains := db.domains.eraseP (·.handle == handle) }

def lookupDomain (domainId : Nat) (specific : Bool) : Option Domain :=
  db.domains.find? fun d => d.domainId == domainId || (specific && d.domainId == anyDomain)

def addParticipant : Nat × Db :=
  (db.numIds + 1, { db with
      participants := db.participants ++ [blank (db.numIds + 1) ['*']]
      numIds := db.numIds + 1 })

def setParticipantAccess (handle : Nat) (name : Name) (access : Nat) (blacklist : Bool) : Db :=
  if (db.getParticipant handle).isSome then
    { db.modifyParticipant handle fun p =>
        { p with name := name, access := access, blacklist := blacklist, refreshed := true,
                 inputNumber := db.inputCounter } with
      inputCounter := db.inputCounter + 1 }
  else db

def participantHandle (name : Name) : Option Nat :=
  (db.participants.find? (·.name == name)).map (·.handle)

def removeParticipant (handle : Nat) : Db :=
  { db with participants := db.participants.eraseP (·.handle == handle) }

end Db

/-! ## Topic and partition rules -/

inductive What where
  | topic | partition
  deriving DecidableEq

/-- Whose rules they are. -/
inductive Owner where
  | participant (handle : Nat)
  | domain (handle : Nat)
  deriving DecidableEq

def Participant.rules (p : Participant) : What → List Rule
  | .topic => p.topics
  | .partition => p.partitions

def Domain.rules (d : Domain) : What → List Rule
  | .topic => d.topics
  | .partition => d.partitions

def Participant.withRules (p : Participant) : What → List Rule → Participant
  | .topic, rules => { p with topics := rules }
  | .partition, rules => { p with partitions := rules }

def Domain.withRules (d : Domain) : What → List Rule → Domain
  | .topic, rules => { d with topics := rules }
  | .partition, rules => { d with partitions := rules }

namespace Db

def rulesOf (db : Db) (owner : Owner) (what : What) : Option (List Rule) :=
  match owner with
  | .participant handle => (db.getParticipant handle).map (·.rules what)
  | .domain handle => (db.getDomain handle).map (·.rules what)

def modifyRules (db : Db) (owner : Owner) (what : What) (touch : Bool) (f : List Rule → List Rule) : Db :=
  match owner with
  | .participant handle => db.modifyParticipant handle fun p =>
      { p.withRules what (f (p.rules what)) with refreshed := touch || p.refreshed }
  | .domain handle => db.modifyDomain handle fun d =>
      { d.withRules what (f (d.rules what)) with refreshed := touch || d.refreshed }

def counter (db : Db) : What → Nat
  | .topic => db.topicCounter
  | .partition => db.partitionCounter

def withCounter (db : Db) : What → Nat → Db
  | .topic, n => { db with topicCounter := n }
  | .partition, n => { db with partitionCounter := n }

variable (db : Db) (owner : Owner) (what : What)

def addRuleTo : Option Nat × Db :=
  match db.rulesOf owner what with
  | none => (none, db)
  | some _ =>
    (some (db.counter what + 1),
      (db.modifyRules owner what false fun rules => addRule rules (db.counter what + 1)).withCounter what
        (db.counter what + 1))

def setRuleAccess (index : Nat) (name : Option Name) (mode : Mode) (id : Nat)
    (blacklist : Bool) : Db :=
  match db.rulesOf owner what with
  | none => db
  | some rules =>
    if rules.any (·.index == index) then
      db.modifyRules owner what true fun rules => setRule rules index name mode id blacklist
    else db

def getRuleHandle (name : Option Name) (mode : Mode) : Option Nat :=
  (db.rulesOf owner what).bind fun rules => ruleHandle rules name mode

def removeRuleFrom (index : Nat) : Db :=
  db.modifyRules owner what false fun rules => removeRule rules index

end Db

/-! ## The end of an update -/

/-- The participants of the update, in its order, come last. -/
def reorderParticipants (inputCounter : Nat) (participants : List Participant) : List Participant :=
  (List.range' 1 (inputCounter - 1)).foldl (fun ps number => toTail (·.inputNumber == number) ps) participants

def cleanupStaleParticipant (p : Participant) : Participant :=
  { p with topics := cleanupRules p.topics, partitions := cleanupRules p.partitions, refreshed := false }

/-- The loop over the participants in `cleanup_stale_db`: what is left of those before, and those to come.  A pointer to
a participant that is gone is read with no result. -/
def cleanupParticipants (done : List Participant) (numPermissions : Nat) :
    List Participant → Option (List Participant × Nat)
  | [] => some (done, numPermissions)
  | p :: rest =>
    if p.refreshed then cleanupParticipants (done ++ [cleanupStaleParticipant p]) numPermissions rest
    else
      match p.cloned with
      | none => cleanupParticipants done numPermissions rest
      | some handle =>
        -- still in the handshake
        if handle = p.handle then cleanupParticipants (done ++ [p]) numPermissions rest
        else
          match (done ++ p :: rest).find? (·.handle == handle) with
          | none => none
          | some origin =>
            if origin.refreshed then
              cleanupParticipants (done ++ [{ p with updatedPermHandle := numPermissions + 1 }]) (numPermissions + 1)
                rest
            else cleanupParticipants done numPermissions rest

def cleanupStaleDomain (d : Domain) : Domain :=
  { d with topics := cleanupRules d.topics, partitions := cleanupRules d.partitions, refreshed := false }

def cleanupDomains (domains : List Domain) : List Domain :=
  domains.filterMap fun d => if d.refreshed then some (cleanupStaleDomain d) else none

section

variable (nmatch : Name → Name → Bool)

/-- Is the name one of those that the rule is for? -/
def Participant.admits (p : Participant) (name : Name) : Bool :=
  p.name == [] || ('*' ∈ p.name && nmatch p.name name) || p.name == name

def glob : Name → Name → Bool
  | [], name => name == []
  | a :: pattern, name =>
    if a == '*' then name.tails.any (glob pattern)
    else
      match name with
      | [] => false
      | c :: name => (a == '?' || a == c) && glob pattern name

/-- A clone is given to the first rule that its name now matches. -/
def rematch (participants : List Participant) (p : Participant) : Participant :=
  match p.cloned with
  | none => p
  | some handle =>
    if handle = p.handle then p
    else
      match participants.find? fun q => q.cloned.isNone && q.admits nmatch p.name with
      | none => p
      | some origin => { p with cloned := some origin.handle }

end

def optimizeParticipant (p : Participant) : Participant :=
  let fallback := if p.cloned.isSome then [] else [Rule.empty]
  { p with topics := optimizeRules fallback p.topics, partitions := optimizeRules fallback p.partitions }

/-- What `create_empty_partition (LIST_PARTICIPANT)` makes, read as a rule of a domain: the domain it is for stands
where the index is read, and the mode is read from an empty pointer. -/
def misreadRule : Rule := { Rule.empty with index := anyDomain, mode := .none }

def optimizeDomain (d : Domain) : Domain :=
  { d with topics := optimizeRules [.empty] d.topics, partitions := optimizeRules [misreadRule] d.partitions }

namespace Db

def updateStart (db : Db) : Db := { db with inputCounter := 1 }

def updateDone (nmatch : Name → Name → Bool) (db : Db) : Option Db :=
  (cleanupParticipants [] db.numPermissions (reorderParticipants db.inputCounter db.participants)).map
    fun (participants, numPermissions) =>
      { db with
        participants := (participants.map (rematch nmatch participants)).map optimizeParticipant
        domains := (cleanupDomains db.domains).map optimizeDomain
        numPermissions := numPermissions }

end Db

end Qeo.Access
