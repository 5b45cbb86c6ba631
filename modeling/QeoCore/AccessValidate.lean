import QeoCore.AccessLookup
/-!
# AccessValidate — who is accepted

An identity without a method is looked up by its name; one with an identity token goes through a handshake, unless the
database knows its key.
-/
namespace Qeo.Access

open Trace

inductive Ret where
  | ok | error | badParameter | outOfResources | notAllowedBySec
  deriving DecidableEq

inductive Validation where
  | accepted | rejected | handshake
  deriving DecidableEq

/-- The walk over the participants ends at the first answer other than bad parameter. -/
def participantWalk {α : Type} (check : Participant → Ret × α) (nobody : α) : List Participant → Ret × α
  | [] => (.error, nobody)
  | p :: rest => if (check p).1 = .badParameter ∧ rest ≠ [] then participantWalk check nobody rest else check p

def maxParticipantName : Nat := 128

namespace Db

def isAlreadyCloned (db : Db) (key : List Nat) : Option Nat := (db.participants.find? (·.key == key)).map (·.handle)

def cloneParticipant (db : Db) (origin : Participant) (name : Name) (key : List Nat) : Ret × Nat × Db :=
  if maxParticipantName ≤ name.length then (.outOfResources, 0, db)
  else
    (.ok, db.numIds + 1, { db with
        participants := {
          handle := db.numIds + 1, permissionsHandle := db.numPermissions + 1, updatedPermHandle := 0, permissions := 0
          name := name, key := key, cloned := some origin.handle, access := 0, blacklist := false
          topics := [], partitions := [], refreshed := false, inputNumber := 0 } :: db.participants
        numIds := db.numIds + 1
        numPermissions := db.numPermissions + 1 })

/-- A participant in its handshake, a clone of itself. -/
def addUncheckedParticipant (db : Db) (identity : Name) (key : List Nat) : Nat × Db :=
  (db.numIds + 1, { db with
      participants := {
          handle := db.numIds + 1, permissionsHandle := db.numPermissions + 1, updatedPermHandle := 0, permissions := 0
          name := identity, key := key, cloned := some (db.numIds + 1), access := 0, blacklist := false
          topics := [], partitions := [], refreshed := false, inputNumber := 0 } :: db.participants
      numIds := db.numIds + 1
      numPermissions := db.numPermissions + 1 })

def removeUncheckedParticipant (db : Db) (handle : Nat) : Db :=
  match db.getParticipant handle with
  | some p => if p.cloned = some p.handle then db.removeParticipant handle else db
  | none => db

def cloneOnce (db : Db) (origin : Participant) (name : Name) (key : List Nat) : Ret × Nat × Db :=
  match db.isAlreadyCloned key with
  | some handle => (.ok, handle, db)
  | none => db.cloneParticipant origin name key

section

variable (nmatch : Name → Name → Bool)

def validateId (db : Db) (name : Name) (key : List Nat) (p : Participant) : Ret × Nat × Db :=
  if p.admits nmatch name then
    if p.blacklist then (.notAllowedBySec, 0, db) else db.cloneOnce p name key
  else (.badParameter, 0, db)

def validateLocalId (db : Db) (name : Name) (key : List Nat) : Ret × Nat × Db :=
  match participantWalk (db.validateId nmatch name key) (0, db) db.participants with
  | (.badParameter, _) => (.notAllowedBySec, 0, db)
  | r => r

section
variable (md5 : Name → List Nat)

def giveKey (db : Db) (handle : Nat) (identity : Name) : Db :=
  db.modifyParticipant handle fun p => if p.key = [] then { p with key := md5 identity } else p

/-- `validate_remote_id` without a method.  A participant that does not match the identity is taken for it. -/
def validateRemoteName (db : Db) (identity : Name) (key : List Nat) (p : Participant) :
    Ret × Nat × Db :=
  if p.admits nmatch identity then
    if p.blacklist then (.notAllowedBySec, 0, db)
    else
      match db.cloneOnce p identity key with
      | (.ok, handle, db) => (.ok, handle, db.giveKey md5 handle identity)
      | r => r
  else if p.blacklist then (.notAllowedBySec, 0, db)
  else (.ok, p.handle, db.giveKey md5 p.handle identity)

def validateRemoteKey (db : Db) (key : List Nat) (p : Participant) : Ret × Nat × Db :=
  if p.key = key then (.ok, p.handle, db) else (.badParameter, 0, db)

inductive Method where
  | identityToken | unknown
  deriving DecidableEq

def validateRemoteId (db : Db) (method : Option Method) (identity : Name) (key : List Nat) :
    Validation × Nat × Db :=
  match method with
  | some .unknown => (.rejected, 0, db)
  | some .identityToken =>
    match participantWalk (db.validateRemoteKey key) (0, db) db.participants with
    | (.ok, handle, db) => (.accepted, handle, db)
    | _ => let (handle, db) := db.addUncheckedParticipant identity key; (.handshake, handle, db)
  | none =>
    match participantWalk (db.validateRemoteName nmatch md5 identity key) (0, db) db.participants with
    | (.ok, handle, db) => (.accepted, handle, db)
    | _ => (.rejected, 0, db)

end

/-- `sp_verify_remote_credentials`: whether the certificate is valid, and the common name in it.  When it is not, or has
no name, a participant that is still in the handshake is removed. -/
def verifyRemoteCredentials (db : Db) (remote : Nat) (valid : Bool) (commonName : Option Name) : Bool × Db :=
  match valid, commonName, db.getParticipant remote with
  | true, some name, some _ => (true, db.modifyParticipant remote fun p => { p with name := name })
  | _, _, _ => (false, db.removeUncheckedParticipant remote)

/-- One visit of `verify_remote`. -/
def checkRemote (db : Db) (handle : Nat) (identity : Name) (p : Participant) : Ret × Db :=
  if p.handle = handle then (.badParameter, db)
  else if p.admits nmatch identity then
    if p.blacklist then (.notAllowedBySec, db)
    else if p.cloned.isSome then (.badParameter, db)
    else (.ok, db.modifyParticipant handle fun q => { q with cloned := some p.handle })
  else (.badParameter, db)

def verifyRemote (db : Db) (handle : Nat) : Bool × Db :=
  match db.getParticipant handle with
  | none => (false, db)
  | some p =>
    match participantWalk (db.checkRemote nmatch handle p.name) db db.participants with
    | (.ok, db) => (true, db)
    | _ => (false, db)

end

/-! ## What is admitted -/

def ruleList (db : Db) : List Participant := db.participants.filter (·.cloned.isNone)

def AdmitsName (nmatch : Name → Name → Bool) (db : Db) (identity : Name) : Prop :=
  ∃ p ∈ db.ruleList.find? (·.admits nmatch identity), p.blacklist = false

end Db

structure Request where
  method : Option Db.Method
  identity : Name
  key : List Nat
  deriving DecidableEq

/-- A request, the database that it met, and the answer. -/
structure Report where
  request : Request
  db : Db
  verified : List Nat
  validation : Validation
  deriving DecidableEq

def Report.Admitted (nmatch : Name → Name → Bool) (r : Report) : Prop :=
  match r.request.method with
  | none => r.db.AdmitsName nmatch r.request.identity
  | some _ => ∃ p ∈ r.db.participants, p.key = r.request.key ∧ p.handle ∈ r.verified

structure Peers where
  db : Db
  verified : List Nat
  reports : List Report

inductive PeerEvent where
  | localId (name : Name) (key : List Nat) (valid : Bool)
  | remoteId (request : Request)
  | handshake (remote : Nat) (valid : Bool) (commonName : Option Name)
  | remotePerm (remote : Nat)

section

variable (nmatch : Name → Name → Bool) (md5 : Name → List Nat)

def Peers.step (s : Peers) : PeerEvent → Option Peers
  | .localId name key valid =>
    let (ret, handle, db) := s.db.validateLocalId nmatch name key
    some { s with db := db, verified := if ret = .ok ∧ valid = true then handle :: s.verified else s.verified }
  | .remoteId q =>
    let (validation, _, db) := s.db.validateRemoteId nmatch md5 q.method q.identity q.key
    some { s with db := db, reports := s.reports ++ [⟨q, s.db, s.verified, validation⟩] }
  | .handshake remote valid commonName =>
    let (done, db) := s.db.verifyRemoteCredentials remote valid commonName
    some { s with db := db, verified := if done then remote :: s.verified else s.verified }
  | .remotePerm remote => some { s with db := (s.db.verifyRemote nmatch remote).2 }

def Db.TurnsAway (db : Db) (q : Request) : Prop :=
  ∀ p ∈ db.participants.head?, p.blacklist = true ∨
    (p.admits nmatch q.identity = true ∧ db.isAlreadyCloned q.key = none ∧ maxParticipantName ≤ q.identity.length)

/-- Without a method, the first participant turns the identity away or the rules admit it; with one, the key is not
known, or it is the key of somebody whose credentials were verified. -/
def Peers.Safe (s : Peers) (q : Request) : Prop :=
  match q.method with
  | none => s.db.TurnsAway nmatch q ∨ s.db.AdmitsName nmatch q.identity
  | some .identityToken =>
    (∃ p ∈ s.db.participants, p.key = q.key) → ∃ p ∈ s.db.participants, p.key = q.key ∧ p.handle ∈ s.verified
  | some .unknown => True

end

def PeerEvent.Safe (nmatch : Name → Name → Bool) (s : Peers) : PeerEvent → Prop
  | .remoteId q => s.Safe nmatch q
  | _ => True

instance Db.TurnsAway.instDecidable (nmatch : Name → Name → Bool) (db : Db) (q : Request) :
    Decidable (db.TurnsAway nmatch q) := inferInstanceAs (Decidable (∀ p ∈ db.participants.head?, _))

instance Db.AdmitsName.instDecidable (nmatch : Name → Name → Bool) (db : Db) (identity : Name) :
    Decidable (db.AdmitsName nmatch identity) :=
  inferInstanceAs (Decidable (∃ p ∈ db.ruleList.find? (·.admits nmatch identity), p.blacklist = false))

instance Report.Admitted.instDecidable (nmatch : Name → Name → Bool) :
    ∀ r : Report, Decidable (r.Admitted nmatch)
  | ⟨⟨none, identity, _⟩, db, _, _⟩ => inferInstanceAs (Decidable (db.AdmitsName nmatch identity))
  | ⟨⟨some _, _, key⟩, db, verified, _⟩ =>
    inferInstanceAs (Decidable (∃ p ∈ db.participants, p.key = key ∧ p.handle ∈ verified))

instance Peers.Safe.instDecidable (nmatch : Name → Name → Bool) (s : Peers) : ∀ q : Request, Decidable (s.Safe nmatch q)
  | ⟨none, identity, key⟩ =>
    inferInstanceAs (Decidable (s.db.TurnsAway nmatch ⟨none, identity, key⟩ ∨ s.db.AdmitsName nmatch identity))
  | ⟨some .identityToken, _, key⟩ =>
    inferInstanceAs (Decidable ((∃ p ∈ s.db.participants, p.key = key) →
      ∃ p ∈ s.db.participants, p.key = key ∧ p.handle ∈ s.verified))
  | ⟨some .unknown, _, _⟩ => inferInstanceAs (Decidable True)

instance PeerEvent.Safe.instDecidable (nmatch : Name → Name → Bool) (s : Peers) :
    ∀ e : PeerEvent, Decidable (e.Safe nmatch s)
  | .remoteId q => inferInstanceAs (Decidable (s.Safe nmatch q))
  | .localId _ _ _ | .handshake _ _ _ | .remotePerm _ => inferInstanceAs (Decidable True)

/-! ## The walk -/

section

variable {nmatch : Name → Name → Bool} {md5 : Name → List Nat} {db : Db} {identity : Name} {key : List Nat}

theorem participantWalk_stop {check : Participant → Ret × α} {nobody : α} (h : (check p).1 ≠ .badParameter) :
    participantWalk check nobody (p :: rest) = check p := by
  unfold participantWalk
  rw [if_neg fun hc => h hc.1]

theorem cloneOnce_ret (p : Participant) :
    (db.cloneOnce p identity key).1 =
      if db.isAlreadyCloned key = none ∧ maxParticipantName ≤ identity.length then .outOfResources else .ok := by
  unfold Db.cloneOnce Db.cloneParticipant
  cases db.isAlreadyCloned key with
  | some handle => simp
  | none =>
    by_cases h : maxParticipantName ≤ identity.length
    · simp [h]
    · simp [h]

theorem validateRemoteName_ret (p : Participant) :
    (db.validateRemoteName nmatch md5 identity key p).1 = if p.blacklist = true then .notAllowedBySec
      else if p.admits nmatch identity = true ∧ db.isAlreadyCloned key = none ∧ maxParticipantName ≤ identity.length
        then .outOfResources else .ok := by
  unfold Db.validateRemoteName
  by_cases hb : p.blacklist = true
  · simp [hb]
  by_cases ha : p.admits nmatch identity = true
  · have hret := @cloneOnce_ret db identity key p
    rw [if_pos ha, if_neg hb, if_neg hb]
    split
    · rename_i hc
      rw [hc] at hret
      split at hret
      · cases hret
      · rw [if_neg (by tauto)]
    · rename_i hc
      split at hret
      · rw [hret, if_pos (by tauto)]
      · exact absurd hret (by
          intro hok
          exact hc _ _ (Prod.ext hok rfl))
  · simp [hb, ha]

theorem validateRemoteKey_walk : ∀ ps : List Participant,
    (participantWalk (db.validateRemoteKey key) (0, db) ps).1 = .ok ↔ ∃ p ∈ ps, p.key = key
  | [] => by simp [participantWalk]
  | p :: rest => by
    by_cases hp : p.key = key
    · rw [participantWalk_stop (by simp [Db.validateRemoteKey, hp])]
      simp [Db.validateRemoteKey, hp]
    unfold participantWalk
    by_cases hr : rest = []
    · simp [Db.validateRemoteKey, hp, hr]
    · rw [if_pos ⟨by simp [Db.validateRemoteKey, hp], hr⟩, validateRemoteKey_walk rest]
      simp [hp]

theorem accepted_name_iff (q : Request) :
    (db.validateRemoteId nmatch md5 none q.identity q.key).1 = .accepted ↔ ¬ db.TurnsAway nmatch q := by
  unfold Db.validateRemoteId Db.TurnsAway
  cases hps : db.participants with
  | nil => simp [participantWalk]
  | cons p rest =>
    have hret := @validateRemoteName_ret nmatch md5 db q.identity q.key p
    have hstop : (db.validateRemoteName nmatch md5 q.identity q.key p).1 ≠ .badParameter := by
      rw [hret]
      split
      · nofun
      · split <;> nofun
    simp only [participantWalk_stop hstop]
    by_cases hok : (db.validateRemoteName nmatch md5 q.identity q.key p).1 = .ok
    · have haway : ¬ (p.blacklist = true ∨ (p.admits nmatch q.identity = true ∧
          db.isAlreadyCloned q.key = none ∧ maxParticipantName ≤ q.identity.length)) := by
        rintro (hb | ha)
        · rw [hret, if_pos hb] at hok
          cases hok
        by_cases hb : p.blacklist = true
        · rw [hret, if_pos hb] at hok
          cases hok
        · rw [hret, if_neg hb, if_pos ha] at hok
          cases hok
      rw [show db.validateRemoteName nmatch md5 q.identity q.key p = (.ok, _) from Prod.ext hok rfl]
      simpa using haway
    have haway : p.blacklist = true ∨ (p.admits nmatch q.identity = true ∧
        db.isAlreadyCloned q.key = none ∧ maxParticipantName ≤ q.identity.length) := by
      by_contra hnot
      obtain ⟨hb, ha⟩ := not_or.1 hnot
      exact hok (by rw [hret, if_neg hb, if_neg ha])
    refine ⟨fun h => ?_, fun h => absurd ?_ h⟩
    · split at h
      · rename_i hc
        exact absurd (congrArg Prod.fst hc) hok
      · cases h
    · simpa using haway

theorem accepted_key_iff (q : Request) :
    (db.validateRemoteId nmatch md5 (some .identityToken) q.identity q.key).1 = .accepted ↔
      ∃ p ∈ db.participants, p.key = q.key := by
  rw [← @validateRemoteKey_walk db q.key db.participants]
  unfold Db.validateRemoteId
  dsimp only
  split
  · rename_i hc
    simp [hc]
  · rename_i hc
    exact ⟨nofun, fun h => (hc _ _ (Prod.ext h rfl)).elim⟩

/-- **A request is answered rightly exactly when it is safe:** it is not accepted, or it was admitted. -/
theorem onlyAdmitted_iff (s : Peers) (q : Request) :
    ((s.db.validateRemoteId nmatch md5 q.method q.identity q.key).1 = .accepted →
      Report.Admitted nmatch ⟨q, s.db, s.verified, .accepted⟩) ↔ s.Safe nmatch q := by
  obtain ⟨method, identity, key⟩ := q
  cases method with
  | none =>
    rw [accepted_name_iff ⟨none, identity, key⟩]
    exact Classical.or_iff_not_imp_left.symm
  | some method =>
    cases method with
    | identityToken =>
      rw [accepted_key_iff ⟨some .identityToken, identity, key⟩]
      exact Iff.rfl
    | unknown => exact ⟨fun _ => trivial, nofun⟩

end

/-! ## Runs -/

/-- **Only admitted identities are accepted, while every request is safe:** whatever local and remote identities are
validated, and however handshakes end. -/
theorem admitted_of_run {nmatch : Name → Name → Bool} {md5 : Name → List Nat} {db : Db} {es : List PeerEvent}
    {s : Peers} (hr : Run (Peers.step nmatch md5) (fun s e => e.Safe nmatch s) ⟨db, [], []⟩ es s) :
    ∀ r ∈ s.reports, r.validation = .accepted → r.Admitted nmatch := by
  refine hr.invariant (fun _ s => ∀ r ∈ s.reports, r.validation = .accepted → r.Admitted nmatch) nofun ?_
  intro es s e s' hs hsafe hstep
  cases e with
  | localId name key valid =>
    cases hstep
    exact hs
  | remoteId q =>
    cases hstep
    intro r hr' hacc
    rcases List.mem_append.1 hr' with hr' | hr'
    · exact hs r hr' hacc
    · rw [List.mem_singleton.1 hr'] at hacc ⊢
      exact (onlyAdmitted_iff s q).2 hsafe hacc
  | handshake remote valid commonName =>
    cases hstep
    exact hs
  | remotePerm remote =>
    cases hstep
    exact hs

def twoRules : Db :=
  { Db.empty with
    participants := [{ blank 1 ['*', 'a'] with inputNumber := 1 },
      { blank 2 ['*'] with blacklist := true, inputNumber := 2 }]
    numIds := 2 }

def shaken : List PeerEvent :=
  [.remoteId ⟨none, ['b', 'a'], [7]⟩, .remoteId ⟨some .identityToken, ['x'], [8]⟩, .handshake 4 true (some ['c', 'a']),
    .remotePerm 4, .remoteId ⟨some .identityToken, ['x'], [8]⟩]

def afterShaken : Peers :=
  (exec (Peers.step glob fun _ => [0]) (fun s e => e.Safe glob s) ⟨twoRules, [], []⟩ shaken).get (by decide)

theorem admitted_shaken : (∃ r ∈ afterShaken.reports, r.validation = .accepted) ∧
    ∀ r ∈ afterShaken.reports, r.validation = .accepted → r.Admitted glob :=
  ⟨by decide, admitted_of_run (Run.of_isSome _)⟩

/-- **The first peer is taken for everybody, and an unfinished handshake for a finished one**: a peer that only the
blacklisted rule matches has no method; a peer comes again before its handshake is done. -/
theorem accepted_unadmitted :
    ∃ es s, Run (Peers.step glob fun _ => [0]) (fun _ _ => True) ⟨twoRules, [], []⟩ es s ∧
      (∃ r ∈ s.reports, r.request.method = none ∧ r.validation = .accepted ∧ ¬ r.Admitted glob) ∧
      (∃ r ∈ s.reports, r.request.method ≠ none ∧ r.validation = .accepted ∧ ¬ r.Admitted glob) := by
  refine ⟨[.remoteId ⟨none, ['b'], [7]⟩, .remoteId ⟨some .identityToken, ['x'], [8]⟩,
    .remoteId ⟨some .identityToken, ['x'], [8]⟩], _, Run.of_isSome, ?_, ?_⟩
  · decide
  · decide

/-! ## Permissions and what they are checked for

A permissions handle is made of the handle of a domain and a number of the participant.  The checks find both again,
follow the pointer of a clone and look for a rule.  `none` stands for a pointer to a participant that is gone.
-/

namespace Db

open Nat

/-! ## Permissions -/

/-- Permissions: the handle of the domain above the number of the participant. -/
def permOf (domain number : Nat) : Nat := (domain <<< 16 ||| number) % 2 ^ 32

section
variable (db : Db)

def participantByPerm (number : Nat) : Option Participant :=
  if number = 0 then none
  else db.participants.find? fun p => p.updatedPermHandle == number || p.permissionsHandle == number

def permPars (perm : Nat) : Option (Domain × Participant) :=
  if perm >>> 16 = 0 ∨ perm % 2 ^ 16 = 0 then none
  else (db.getDomain (perm >>> 16)).bind fun d => (db.participantByPerm (perm % 2 ^ 16)).map fun p => (d, p)

/-- The rule that a clone was admitted by. -/
def origin (p : Participant) : Option Participant :=
  match p.cloned with
  | none => some p
  | some handle => db.getParticipant handle

def allowAccess (d : Domain) (p : Participant) : Option Bool :=
  if d.access = 0 then some true
  else (db.origin p).map fun p =>
    if p.access < d.access then false
    else !d.exclusive || p.topics.any fun r => r.mode != .none && r.appliesIn d.domainId

/-- The permissions that are handed out and stored. -/
def grant (domain : Nat) (p : Participant) : Nat × Db :=
  let number := if p.updatedPermHandle = 0 then p.permissionsHandle else p.updatedPermHandle
  (permOf domain number, db.modifyParticipant p.handle fun q =>
      { q with permissionsHandle := number, updatedPermHandle := 0, permissions := permOf domain number })

def validateLocalPerm (domainId handle : Nat) : Option (Ret × Nat × Db) :=
  match db.lookupDomain domainId true with
  -- an unsecure domain
  | none => some (.ok, 1, db)
  | some d =>
    if handle = 0 then some (.notAllowedBySec, handle, db)
    else
      match db.getParticipant handle with
      | none => some (.notAllowedBySec, 0, db)
      | some p => (db.allowAccess d p).map fun allowed =>
        if allowed then (.ok, db.grant d.handle p)
        else (.notAllowedBySec, 0, db.modifyParticipant handle fun q => { q with permissions := 0 })

def lookupByToken (token : List Nat) : Option Participant :=
  db.participants.find? fun p => p.key.length == 16 && token.length == 16 && p.key == token

end

def validatePeerPerm (nmatch : Name → Name → Bool) (db : Db) (lcl remote : Nat) (dtls : Option (List Nat)) :
    Option (Ret × Nat × Db) :=
  match db.getParticipant lcl, db.getParticipant remote with
  | some l, some p =>
    match db.getDomain (l.permissions >>> 16) with
    | none => some (.badParameter, 0, db)
    | some d =>
      match dtls with
      | some token =>
        if (db.lookupByToken token).map (·.handle) = some remote then
          (db.allowAccess d p).map fun allowed =>
            if allowed then (.ok, db.grant d.handle p) else (.notAllowedBySec, 0, db)
        else some (.notAllowedBySec, 0, db)
      | none =>
        match db.verifyRemote nmatch remote with
        | (true, db) => some (.ok, db.grant d.handle p)
        | (false, db) => some (.notAllowedBySec, 0, db)
  | _, _ => some (.badParameter, 0, db)

/-! ## The checks -/

section

variable (nmatch : Name → Name → Bool)

def lookupPartition (d : Domain) (p : Participant) (bit : Mode → Bool) (partition : Name) : Option Rule :=
  match p.partitions.find? fun r => r.appliesIn d.domainId && bit r.mode && r.covers nmatch partition with
  | some r => if r.blacklist then none else some r
  | none =>
    match d.partitions.find? fun r => bit r.mode && r.covers nmatch partition with
    | some r => if r.blacklist then none else some r
    | none => none

def checkAccess (bit : Mode → Bool) (db : Db) (perm : Nat) (topic : Name) (partitions : List Name) : Option Ret :=
  if perm = 1 then some .ok
  else
    match db.permPars perm with
    | none => some .notAllowedBySec
    | some (d, p) => (db.origin p).map fun p =>
      if (lookupTopic nmatch d p topic).any (fun t => bit t.rule.mode) &&
          partitions.all (fun name => !hasWildcards (some name) &&
            (lookupPartition nmatch d p bit name).any fun r => bit r.mode) then .ok
      else .notAllowedBySec

section
variable (db : Db) (perm : Nat) (topic : Name)

def checkCreateTopic : Option Ret :=
  checkAccess nmatch Mode.create db perm topic []

variable (partitions : Option (List Name))

def checkCreateWriter : Option Ret :=
  checkAccess nmatch Mode.write db perm topic (partitions.getD [])

def checkCreateReader : Option Ret :=
  checkAccess nmatch Mode.read db perm topic (partitions.getD [])

def checkPeerTopic : Option Ret :=
  checkAccess nmatch Mode.create db perm topic []

def checkPeerWriter : Option Ret :=
  checkAccess nmatch Mode.write db perm topic (partitions.getD [])

def checkPeerReader : Option Ret :=
  checkAccess nmatch Mode.read db perm topic (partitions.getD [])

end

structure PassesNone (db : Db) (perm : Nat) : Prop where
  createTopic : ∀ topic, db.checkCreateTopic nmatch perm topic = some .notAllowedBySec
  createWriter : ∀ topic partitions, db.checkCreateWriter nmatch perm topic partitions = some .notAllowedBySec
  createReader : ∀ topic partitions, db.checkCreateReader nmatch perm topic partitions = some .notAllowedBySec
  peerTopic : ∀ topic, db.checkPeerTopic nmatch perm topic = some .notAllowedBySec
  peerWriter : ∀ topic partitions, db.checkPeerWriter nmatch perm topic partitions = some .notAllowedBySec
  peerReader : ∀ topic partitions, db.checkPeerReader nmatch perm topic partitions = some .notAllowedBySec

variable {nmatch}

theorem passesNone_of_permPars {db : Db} (hperm : perm ≠ 1) (h : db.permPars perm = none) :
    db.PassesNone nmatch perm := by
  have hcheck : ∀ bit topic partitions, checkAccess nmatch bit db perm topic partitions = some .notAllowedBySec := by
    intro bit topic partitions
    unfold checkAccess
    rw [if_neg hperm, h]
  exact ⟨fun _ => hcheck _ _ _, fun _ _ => hcheck _ _ _, fun _ _ => hcheck _ _ _, fun _ => hcheck _ _ _,
    fun _ _ => hcheck _ _ _, fun _ _ => hcheck _ _ _⟩

end

theorem permOf_ne_one (hd : 1 ≤ domain) (hd' : domain < 2 ^ 16) : permOf domain number ≠ 1 := by
  intro h
  have hdiv : permOf domain number / 2 ^ 16 = 0 := by omega
  have hpow : (2 : Nat) ^ 32 = 2 ^ 16 * 2 ^ 16 := rfl
  unfold permOf at hdiv
  rw [hpow, Nat.mod_mul_right_div_self, Nat.or_div_two_pow, Nat.shiftLeft_eq, Nat.mul_div_cancel _ (by decide),
    or_mod_two_pow, mod_eq_of_lt hd'] at hdiv
  have hle : domain ≤ domain ||| number / 2 ^ 16 % 2 ^ 16 := left_le_or
  omega

theorem permPars_of_unused {db : Db} (hnumber : number < 2 ^ 16)
    (h : ∀ p ∈ db.participants, p.updatedPermHandle = number ∨ p.permissionsHandle = number → number = 0) :
    db.permPars (permOf domain number) = none := by
  have hmod : permOf domain number % 2 ^ 16 = number := by
    unfold permOf
    rw [mod_mod_of_dvd _ ⟨2 ^ 16, by decide⟩, or_mod_two_pow, mod_eq_of_lt hnumber,
      shiftLeft_eq, mul_mod_left, zero_or]
  unfold permPars
  rw [hmod]
  by_cases hzero : permOf domain number >>> 16 = 0 ∨ number = 0
  · rw [if_pos hzero]
  rw [if_neg hzero]
  obtain ⟨-, hne⟩ := not_or.1 hzero
  have hnone : db.participantByPerm number = none := by
    unfold participantByPerm
    rw [if_neg hne]
    refine List.find?_eq_none.2 fun p hp hfound => hne (h p hp ?_)
    simpa using hfound
  rw [hnone]
  cases db.getDomain (permOf domain number >>> 16) <;> rfl

end Db

end Qeo.Access
