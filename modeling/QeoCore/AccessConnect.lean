import QeoCore.AccessClones
/-!
# AccessConnect — connecting and updating, in any order

Between updates participants are cloned, go through handshakes and are given permissions.  All of it keeps the database
sound, as long as rules are left alone.
-/
namespace Qeo.Access

open List Option Participant Trace

inductive ConnectEvent where
  | localId (name : Name) (key : List Nat)
  | remoteId (request : Request)
  | handshake (remote : Nat) (valid : Bool) (commonName : Option Name)
  | localPerm (domainId handle : Nat)
  | peerPerm (lcl remote : Nat) (dtls : Option (List Nat))
  | update (u : PolicyUpdate)

structure Connected where
  db : Db
  held : List (Nat × Nat)

open Connected

def Connected.empty : Connected := ⟨Db.empty, []⟩

def Connected.step (nmatch : Name → Name → Bool) (md5 : Name → List Nat) (s : Connected) : ConnectEvent →
    Option Connected
  | .localId name key => some { s with db := (s.db.validateLocalId nmatch name key).2.2 }
  | .remoteId q => some { s with db := (s.db.validateRemoteId nmatch md5 q.method q.identity q.key).2.2 }
  | .handshake remote valid commonName => some { s with db := (s.db.verifyRemoteCredentials remote valid commonName).2 }
  | .localPerm domainId handle =>
    (s.db.validateLocalPerm domainId handle).map fun (ret, perm, db) =>
      ⟨db, if ret = .ok ∧ (s.db.lookupDomain domainId true).isSome then (handle, perm) :: s.held else s.held⟩
  | .peerPerm lcl remote dtls =>
    (s.db.validatePeerPerm nmatch lcl remote dtls).map fun (ret, perm, db) =>
      ⟨db, if ret = .ok then (remote, perm) :: s.held else s.held⟩
  | .update u => (s.db.policyUpdate nmatch u).map fun db => { s with db := db }

def Db.NotRule (db : Db) (handle : Nat) : Prop := ∀ p ∈ db.participants, p.handle = handle → p.cloned ≠ none

/-- A handshake is not made for a rule, and when it fails nobody has been cloned from the participant; permissions are
not asked for a rule as peer; and updates are as above. -/
def ConnectEvent.Ok (nmatch : Name → Name → Bool) (s : Connected) : ConnectEvent → Prop
  | .localId _ _ | .remoteId _ | .localPerm _ _ => True
  | .handshake remote valid commonName => s.db.NotRule remote ∧
      ((valid && commonName.isSome) = true ∨ ∀ p ∈ s.db.participants, p.cloned = some remote → p.handle = remote)
  | .peerPerm _ remote _ => s.db.NotRule remote
  | .update u => s.db.UpdateOk nmatch u

def Connected.Good (s : Connected) : Prop := s.db.Sound ∧ s.db.Honours s.held

section

variable {nmatch : Name → Name → Bool} {md5 : Name → List Nat} {db : Db} {held : List (Nat × Nat)} {handle : Nat}

theorem good_empty : empty.Good := by
  refine ⟨⟨nodup_nil, ?_, List.Pairwise.nil, ?_, ?_, ?_, ?_, ?_, ?_, ?_⟩, ?_⟩
  all_goals simp [empty, Db.empty, Db.Honours]

structure Tame (db : Db) (p p' : Participant) : Prop where
  handle : p'.handle = p.handle
  cloned : p'.cloned = p.cloned ∨ p.cloned ≠ none ∧ ∃ r ∈ db.participants, r.cloned = none ∧ p'.cloned = some r.handle
  refreshed : p'.refreshed = p.refreshed
  inputNumber : p'.inputNumber = p.inputNumber
  name : p.cloned = none → p'.name = p.name
  numbers : ∀ n ≠ 0, n ∈ p'.numbers → n ∈ p.numbers

theorem Tame.refl (db : Db) (p : Participant) : Tame db p p := ⟨rfl, .inl rfl, rfl, rfl, fun _ => rfl, fun _ _ => id⟩

theorem Tame.rule (h : Tame db p p') : p'.cloned = none ↔ p.cloned = none := by
  rcases h.cloned with heq | ⟨hne, r, -, -, heq⟩
  · rw [heq]
  · rw [heq]
    exact iff_of_false nofun hne

theorem good_map (hs : db.Sound) (hh : db.Honours held) (hf : ∀ p ∈ db.participants, Tame db p (f p)) :
    Good ⟨{ db with participants := db.participants.map f }, held⟩ := by
  refine ⟨⟨?_, ?_, ?_, ?_, ?_, ?_, ?_, ?_, ?_, hs.domains⟩, ?_⟩
  · have hsame : db.participants.map (handle ∘ f) = db.participants.map handle :=
      map_congr_left fun p hp => (hf p hp).handle
    rw [List.map_map, hsame]
    exact hs.handles
  · exact forall_mem_map.2 fun p hp => (hf p hp).handle ▸ hs.bounded p hp
  · refine pairwise_map.2 (hs.order.imp_of_mem fun {a b} ha hb hab => ?_)
    rw [(hf a ha).rule, (hf b hb).rule, (hf a ha).handle]
    refine ⟨hab.1, ?_⟩
    rcases (hf b hb).cloned with heq | ⟨hne, r, hr, hrc, heq⟩
    · exact heq ▸ hab.2
    -- what stands before one that is not a rule is none
    rw [heq]
    intro hra
    obtain rfl := eq_of_handle hs.handles hr ha (some.inj hra)
    exact hne (hab.1 hrc)
  · refine forall_mem_map.2 fun p hp handle hc => ?_
    obtain ⟨r, hr, rfl⟩ : ∃ r ∈ db.participants, r.handle = handle := by
      rcases (hf p hp).cloned with heq | ⟨-, r, hr, -, heq⟩
      · exact hs.points p hp handle (heq ▸ hc)
      · exact ⟨r, hr, some.inj (heq.symm.trans hc)⟩
    exact ⟨f r, mem_map_of_mem hr, (hf r hr).handle⟩
  · refine forall_mem_map.2 fun p hp => forall_mem_map.2 fun r hr hpc hrc hname => ?_
    rw [(hf p hp).rule] at hpc
    rw [(hf r hr).rule] at hrc
    rw [(hf p hp).name hpc, (hf r hr).name hrc] at hname
    rw [hs.names p hp r hr hpc hrc hname]
  · exact forall_mem_map.2 fun p hp => (hf p hp).refreshed.trans (hs.stale p hp)
  · refine forall_mem_map.2 fun p hp hc => ?_
    exact (hf p hp).inputNumber.trans (hs.inputNumber p hp (mt (hf p hp).rule.2 hc))
  · refine forall_mem_map.2 fun p hp n hn => ?_
    by_cases hzero : n = 0
    · omega
    · exact hs.numbers p hp n ((hf p hp).numbers n hzero hn)
  · refine forall_mem_map.2 fun p hp => forall_mem_map.2 fun r hr n hzero hnp hnr => ?_
    rw [(hf p hp).handle, (hf r hr).handle]
    exact hs.distinct p hp r hr n hzero ((hf p hp).numbers n hzero hnp) ((hf r hr).numbers n hzero hnr)
  · intro hp hheld
    obtain ⟨domain, n, hperm, hd, hd', hn, hown⟩ := hh hp hheld
    refine ⟨domain, n, hperm, hd, hd', hn, forall_mem_map.2 fun p hp' hzero hnum => ?_⟩
    exact (hf p hp').handle.trans (hown p hp' hzero ((hf p hp').numbers n hzero hnum))

theorem good_modify (hs : db.Sound) (hh : db.Honours held)
    (hg : ∀ p ∈ db.participants, p.handle = handle → Tame db p (g p)) :
    Good ⟨db.modifyParticipant handle g, held⟩ := by
  refine good_map hs hh fun p hp => ?_
  split
  · exact hg p hp ‹_›
  · exact .refl db p

theorem good_add (hs : db.Sound) (hh : db.Honours held) (hhandle : p.handle = db.numIds + 1)
    (hcloned : p.cloned = some p.handle ∨ ∃ r ∈ db.participants, p.cloned = some r.handle)
    (hnumbers : p.numbers = [db.numPermissions + 1, 0]) (hrefreshed : p.refreshed = false)
    (hinput : p.inputNumber = 0) :
    Good ⟨{ db with
      participants := p :: db.participants
      numIds := db.numIds + 1
      numPermissions := db.numPermissions + 1 }, held⟩ := by
  have hsome : p.cloned ≠ none := by rcases hcloned with hc | ⟨r, -, hc⟩ <;> rw [hc] <;> nofun
  have hnew : ∀ r ∈ db.participants, r.handle ≠ p.handle := by
    intro r hr
    have := hs.bounded r hr
    omega
  have hnot : ∀ r ∈ db.participants, r.cloned ≠ some p.handle := by
    intro r hr hc
    obtain ⟨r', hr', heq⟩ := hs.points r hr p.handle hc
    exact hnew r' hr' heq
  have hnum : ∀ n ∈ p.numbers, n ≠ 0 → n = db.numPermissions + 1 := by
    intro n hn hzero
    rw [hnumbers] at hn
    simpa [hzero] using hn
  refine ⟨⟨?_, ?_, ?_, ?_, ?_, ?_, ?_, ?_, ?_, hs.domains⟩, ?_⟩
  · refine nodup_cons.2 ⟨fun hmem => ?_, hs.handles⟩
    obtain ⟨r, hr, heq⟩ := mem_map.1 hmem
    exact hnew r hr heq
  · exact forall_mem_cons.2 ⟨Nat.le_of_eq hhandle, fun r hr => Nat.le_succ_of_le (hs.bounded r hr)⟩
  · refine pairwise_cons.2 ⟨fun r hr => ⟨fun hnone => absurd hnone hsome, hnot r hr⟩, hs.order⟩
  · intro r hr handle hc
    rcases mem_cons.1 hr with rfl | hr
    · rcases hcloned with hself | ⟨r', hr', hr''⟩
      · exact ⟨r, mem_cons_self, some.inj (hself.symm.trans hc)⟩
      · exact ⟨r', mem_cons_of_mem _ hr', some.inj (hr''.symm.trans hc)⟩
    · obtain ⟨r', hr', heq⟩ := hs.points r hr handle hc
      exact ⟨r', mem_cons_of_mem _ hr', heq⟩
  · intro a ha b hb hac hbc hname
    have ha' : a ∈ db.participants := (mem_cons.1 ha).resolve_left (by rintro rfl; exact hsome hac)
    have hb' : b ∈ db.participants := (mem_cons.1 hb).resolve_left (by rintro rfl; exact hsome hbc)
    exact hs.names a ha' b hb' hac hbc hname
  · exact forall_mem_cons.2 ⟨hrefreshed, hs.stale⟩
  · exact forall_mem_cons.2 ⟨fun _ => hinput, hs.inputNumber⟩
  · refine forall_mem_cons.2 ⟨fun n hn => ?_, fun r hr n hn => Nat.le_succ_of_le (hs.numbers r hr n hn)⟩
    by_cases hzero : n = 0
    · omega
    · exact Nat.le_of_eq (hnum n hn hzero)
  · intro a ha b hb n hzero hna hnb
    rcases mem_cons.1 ha with rfl | ha'
    · rcases mem_cons.1 hb with rfl | hb'
      · rfl
      · have := hs.numbers b hb' n hnb
        have := hnum n hna hzero
        omega
    · rcases mem_cons.1 hb with rfl | hb'
      · have := hs.numbers a ha' n hna
        have := hnum n hnb hzero
        omega
      · exact hs.distinct a ha' b hb' n hzero hna hnb
  · intro hp hmem
    obtain ⟨domain, n, hperm, hd, hd', hn, hown⟩ := hh hp hmem
    refine ⟨domain, n, hperm, hd, hd', Nat.le_succ_of_le hn, fun r hr hzero hnr => ?_⟩
    rcases mem_cons.1 hr with rfl | hr
    · have := hnum n hnr hzero
      omega
    · exact hown r hr hzero hnr

theorem good_remove (hs : db.Sound) (hh : db.Honours held)
    (hpoints : ∀ p ∈ db.participants, p.cloned = some handle → p.handle = handle) :
    Good ⟨db.removeParticipant handle, held⟩ := by
  have hsub : (db.participants.eraseP (·.handle == handle)).Sublist db.participants := eraseP_sublist
  have hmem : ∀ p ∈ db.participants.eraseP (·.handle == handle), p ∈ db.participants := fun p hp => hsub.subset hp
  have hne : ∀ p ∈ db.participants.eraseP (·.handle == handle), p.handle ≠ handle := by
    intro p hp heq
    obtain ⟨a, l1, l2, -, ha, hsplit, herase⟩ :=
      exists_of_eraseP (p := fun p : Participant => p.handle == handle) (hmem p hp) (by simpa using heq)
    have hnodup := hs.handles
    rw [herase] at hp
    rw [hsplit, map_append, map_cons, nodup_middle, nodup_cons, ← map_append] at hnodup
    have ha' : a.handle = handle := by simpa using ha
    exact hnodup.1 (mem_map.2 ⟨p, hp, heq.trans ha'.symm⟩)
  refine ⟨⟨?_, ?_, ?_, ?_, ?_, ?_, ?_, ?_, ?_, hs.domains⟩, ?_⟩
  · exact hs.handles.sublist (hsub.map _)
  · exact fun p hp => hs.bounded p (hmem p hp)
  · exact hs.order.sublist hsub
  · intro p hp handle' hc
    obtain ⟨r, hr, rfl⟩ := hs.points p (hmem p hp) handle' hc
    have hr' : r.handle ≠ handle := fun heq => hne p hp (hpoints p (hmem p hp) (heq ▸ hc))
    exact ⟨r, (mem_eraseP_of_neg (by simpa using hr')).2 hr, rfl⟩
  · exact fun p hp r hr => hs.names p (hmem p hp) r (hmem r hr)
  · exact fun p hp => hs.stale p (hmem p hp)
  · exact fun p hp => hs.inputNumber p (hmem p hp)
  · exact fun p hp => hs.numbers p (hmem p hp)
  · exact fun p hp r hr => hs.distinct p (hmem p hp) r (hmem r hr)
  · intro hp hheld
    obtain ⟨domain, n, hperm, hd, hd', hn, hown⟩ := hh hp hheld
    exact ⟨domain, n, hperm, hd, hd', hn, fun p hp' => hown p (hmem p hp')⟩

/-! ## The events -/

theorem participantWalk_mem {check : Participant → Ret × α} (nobody : α) : ∀ ps : List Participant,
    participantWalk check nobody ps = (.error, nobody) ∨ ∃ p ∈ ps, participantWalk check nobody ps = check p
  | [] => .inl rfl
  | p :: rest => by
    unfold participantWalk
    split
    · rcases participantWalk_mem nobody rest with h | ⟨q, hq, h⟩
      · exact .inl h
      · exact .inr ⟨q, mem_cons_of_mem _ hq, h⟩
    · exact .inr ⟨p, mem_cons_self, rfl⟩

theorem participantWalk_ok {check : Participant → Ret × α} (h : participantWalk check nobody ps = (.ok, r)) :
    ∃ p ∈ ps, check p = (.ok, r) := by
  rcases participantWalk_mem nobody ps with hnone | ⟨p, hp, heq⟩
  · rw [hnone] at h
    cases h
  · exact ⟨p, hp, heq ▸ h⟩

section
variable (hs : db.Sound) (hh : db.Honours held)
include hs hh

theorem good_cloneOnce (horigin : origin ∈ db.participants)
    (name : Name) (key : List Nat) : Good ⟨(db.cloneOnce origin name key).2.2, held⟩ := by
  unfold Db.cloneOnce Db.cloneParticipant
  split
  · exact ⟨hs, hh⟩
  · split
    · exact ⟨hs, hh⟩
    · exact good_add hs hh rfl (.inr ⟨origin, horigin, rfl⟩) rfl rfl rfl

theorem good_validateLocalId (name : Name) (key : List Nat) :
    Good ⟨(db.validateLocalId nmatch name key).2.2, held⟩ := by
  have hcheck : ∀ p ∈ db.participants, Good ⟨(db.validateId nmatch name key p).2.2, held⟩ := by
    intro p hp
    unfold Db.validateId
    split
    · split
      · exact ⟨hs, hh⟩
      · exact good_cloneOnce hs hh hp name key
    · exact ⟨hs, hh⟩
  have hwalk : Good ⟨(participantWalk (db.validateId nmatch name key) (0, db) db.participants).2.2, held⟩ := by
    rcases participantWalk_mem (0, db) db.participants with h | ⟨p, hp, h⟩
    · rw [h]
      exact ⟨hs, hh⟩
    · rw [h]
      exact hcheck p hp
  unfold Db.validateLocalId
  split
  · exact ⟨hs, hh⟩
  · exact hwalk

theorem good_giveKey (handle : Nat) (identity : Name) :
    Good ⟨db.giveKey md5 handle identity, held⟩ := by
  refine good_modify hs hh fun p _ _ => ?_
  split
  · exact ⟨rfl, .inl rfl, rfl, rfl, fun _ => rfl, fun _ _ => id⟩
  · exact .refl db p

theorem good_validateRemoteId (q : Request) :
    Good ⟨(db.validateRemoteId nmatch md5 q.method q.identity q.key).2.2, held⟩ := by
  have hname : ∀ p ∈ db.participants,
      Good ⟨(db.validateRemoteName nmatch md5 q.identity q.key p).2.2, held⟩ := by
    intro p hp
    unfold Db.validateRemoteName
    have hclone := good_cloneOnce hs hh hp q.identity q.key
    split
    · split
      · exact ⟨hs, hh⟩
      split
      · rename_i heq
        rw [heq] at hclone
        exact good_giveKey hclone.1 hclone.2 _ _
      · exact hclone
    · split
      · exact ⟨hs, hh⟩
      · exact good_giveKey hs hh _ _
  have hkey : ∀ p ∈ db.participants, (db.validateRemoteKey q.key p).2.2 = db := by
    intro p _
    unfold Db.validateRemoteKey
    split <;> rfl
  unfold Db.validateRemoteId
  cases q.method with
  | none =>
    dsimp only
    split
    · rename_i heq
      obtain ⟨p, hp, h⟩ := participantWalk_ok heq
      have hgood := hname p hp
      rw [h] at hgood
      exact hgood
    · exact ⟨hs, hh⟩
  | some method =>
    cases method with
    | unknown => exact ⟨hs, hh⟩
    | identityToken =>
      dsimp only
      split
      · rename_i heq
        obtain ⟨p, hp, h⟩ := participantWalk_ok heq
        have hdb := hkey p hp
        rw [h] at hdb
        exact hdb ▸ ⟨hs, hh⟩
      · exact good_add hs hh rfl (.inl rfl) rfl rfl rfl

theorem good_verifyRemoteCredentials (hrule : db.NotRule remote)
    (hfail : (valid && commonName.isSome) = true ∨ ∀ p ∈ db.participants, p.cloned = some remote → p.handle = remote) :
    Good ⟨(db.verifyRemoteCredentials remote valid commonName).2, held⟩ := by
  unfold Db.verifyRemoteCredentials
  split
  · refine good_modify hs hh fun p hp heq => ?_
    exact ⟨rfl, .inl rfl, rfl, rfl, fun hc => absurd hc (hrule p hp heq), fun _ _ => id⟩
  rename_i hnot
  unfold Db.removeUncheckedParticipant
  split
  · rename_i p hp
    split
    · refine good_remove hs hh (hfail.resolve_left fun hok => ?_)
      obtain ⟨hv, hc⟩ := (Bool.and_eq_true _ _).mp hok
      obtain ⟨name, hname⟩ := isSome_iff_exists.1 hc
      exact hnot name p hv hname hp
    · exact ⟨hs, hh⟩
  · exact ⟨hs, hh⟩

end

theorem verifyRemote_cases (nmatch : Name → Name → Bool) (db : Db) (remote : Nat) :
    (db.verifyRemote nmatch remote).2 = db ∨ ∃ r ∈ db.participants, r.cloned = none ∧
      (db.verifyRemote nmatch remote).2 = db.modifyParticipant remote fun p => { p with cloned := some r.handle } := by
  unfold Db.verifyRemote
  split
  · exact .inl rfl
  split
  · rename_i heq
    obtain ⟨r, hr, h⟩ := participantWalk_ok heq
    unfold Db.checkRemote at h
    split at h
    · cases h
    split at h
    · split at h
      · cases h
      split at h
      · cases h
      · rename_i hcloned
        cases h
        exact .inr ⟨r, hr, by simpa using hcloned, rfl⟩
    · cases h
  · exact .inl rfl

theorem good_verifyRemote (hs : db.Sound) (hh : db.Honours held) {remote : Nat} (hrule : db.NotRule remote) :
    Good ⟨(db.verifyRemote nmatch remote).2, held⟩ := by
  rcases verifyRemote_cases nmatch db remote with h | ⟨r, hr, hrc, h⟩
  · rw [h]
    exact ⟨hs, hh⟩
  · rw [h]
    refine good_modify hs hh fun p hp heq => ?_
    exact ⟨rfl, .inr ⟨hrule p hp heq, r, hr, hrc, rfl⟩, rfl, rfl, fun _ => rfl, fun _ _ => id⟩

theorem good_grant (hs : db.Sound) (hh : db.Honours held) (hp : p ∈ db.participants)
    (hd : 1 ≤ domain) (hd' : domain ≤ db.numDomains) :
    Good ⟨(db.grant domain p).2, (p.handle, (db.grant domain p).1) :: held⟩ := by
  obtain ⟨number, hnumber⟩ : ∃ number, number = if p.updatedPermHandle = 0 then p.permissionsHandle
      else p.updatedPermHandle := ⟨_, rfl⟩
  have hmem : number ∈ p.numbers := by
    rw [hnumber]
    split <;> simp [numbers]
  have hgrant : db.grant domain p = (Db.permOf domain number, db.modifyParticipant p.handle fun q =>
      { q with
        permissionsHandle := number
        updatedPermHandle := 0
        permissions := Db.permOf domain number }) := by
    unfold Db.grant
    rw [← hnumber]
  have hf : ∀ q ∈ db.participants, q.handle = p.handle → Tame db q { q with
      permissionsHandle := number
      updatedPermHandle := 0
      permissions := Db.permOf domain number } := by
    intro q hq heq
    refine ⟨rfl, .inl rfl, rfl, rfl, fun _ => rfl, fun n hzero hn => ?_⟩
    rw [eq_of_handle hs.handles hq hp heq]
    simp only [numbers, mem_cons, not_mem_nil, or_false] at hn
    rcases hn with rfl | hn
    · exact hmem
    · exact absurd hn hzero
  have hgood := good_modify hs hh hf
  rw [hgrant]
  refine ⟨hgood.1, ?_⟩
  intro hq hheld
  rcases mem_cons.1 hheld with rfl | hheld
  · refine ⟨domain, number, rfl, hd, hd', hs.numbers p hp number hmem, forall_mem_map.2 fun q hq hzero hn => ?_⟩
    split at hn
    · rename_i heq
      rw [if_pos heq]
      exact heq
    · rename_i heq
      rw [if_neg heq]
      exact hs.distinct q hq p hp number hzero hn hmem
  · exact hgood.2 hq hheld

theorem getParticipant_some (h : db.getParticipant handle = some p) : p ∈ db.participants ∧ p.handle = handle :=
  ⟨mem_of_find?_eq_some h, by simpa using find?_some h⟩

theorem good_validateLocalPerm (hs : db.Sound) (hh : db.Honours held)
    (h : db.validateLocalPerm domainId handle = some (ret, perm, db')) :
    Good ⟨db', if ret = .ok ∧ (db.lookupDomain domainId true).isSome then (handle, perm) :: held else held⟩ := by
  unfold Db.validateLocalPerm at h
  cases hd : db.lookupDomain domainId true with
  | none =>
    rw [hd] at h
    cases h
    exact ⟨hs, hh⟩
  | some d =>
    rw [hd] at h
    dsimp only at h
    have hbound := hs.domains d (mem_of_find?_eq_some hd)
    split at h
    · cases h
      exact ⟨hs, hh⟩
    split at h
    · cases h
      exact ⟨hs, hh⟩
    rename_i p hp
    obtain ⟨hmem, rfl⟩ := getParticipant_some hp
    obtain ⟨allowed, -, heq⟩ := map_eq_some_iff.1 h
    cases allowed with
    | true =>
      obtain ⟨rfl, hgrant⟩ := Prod.mk.inj heq
      have hgood := good_grant hs hh hmem hbound.1 hbound.2
      rw [hgrant] at hgood
      exact hgood
    | false =>
      cases heq
      exact good_modify hs hh fun q _ _ => ⟨rfl, .inl rfl, rfl, rfl, fun _ => rfl, fun _ _ => id⟩

theorem verifyRemote_domains (db : Db) (remote : Nat) :
    (db.verifyRemote nmatch remote).2.domains = db.domains ∧
    (db.verifyRemote nmatch remote).2.numDomains = db.numDomains := by
  rcases verifyRemote_cases nmatch db remote with h | ⟨r, -, -, h⟩ <;> rw [h] <;> exact ⟨rfl, rfl⟩

theorem verifyRemote_mem {remote : Nat} {p : Participant} (hp : p ∈ db.participants) :
    ∃ p' ∈ (db.verifyRemote nmatch remote).2.participants, p'.handle = p.handle ∧
      p'.permissionsHandle = p.permissionsHandle ∧ p'.updatedPermHandle = p.updatedPermHandle := by
  rcases verifyRemote_cases nmatch db remote with h | ⟨r, -, -, h⟩
  · rw [h]
    exact ⟨p, hp, rfl, rfl, rfl⟩
  rw [h]
  refine ⟨_, mem_map_of_mem hp, ?_⟩
  split <;> exact ⟨rfl, rfl, rfl⟩

theorem grant_congr (db : Db) (domain : Nat) (hhandle : p'.handle = p.handle)
    (hperm : p'.permissionsHandle = p.permissionsHandle) (hupdated : p'.updatedPermHandle = p.updatedPermHandle) :
    db.grant domain p' = db.grant domain p := by
  unfold Db.grant
  rw [hhandle, hperm, hupdated]

theorem good_validatePeerPerm (hs : db.Sound) (hh : db.Honours held) (hrule : db.NotRule remote)
    (h : db.validatePeerPerm nmatch lcl remote dtls = some (ret, perm, db')) :
    Good ⟨db', if ret = .ok then (remote, perm) :: held else held⟩ := by
  unfold Db.validatePeerPerm at h
  split at h
  · rename_i l p hl hp
    obtain ⟨hmem, hhandle⟩ := getParticipant_some hp
    split at h
    · cases h
      exact ⟨hs, hh⟩
    rename_i d hd
    have hbound := hs.domains d (mem_of_find?_eq_some hd)
    split at h
    · split at h
      · obtain ⟨allowed, -, heq⟩ := map_eq_some_iff.1 h
        cases allowed with
        | true =>
          obtain ⟨rfl, hgrant⟩ := Prod.mk.inj heq
          have hgood := good_grant hs hh hmem hbound.1 hbound.2
          rw [hgrant, hhandle] at hgood
          exact hgood
        | false =>
          cases heq
          exact ⟨hs, hh⟩
      · cases h
        exact ⟨hs, hh⟩
    have htied := @good_verifyRemote nmatch db held hs hh remote hrule
    have hdomains := @verifyRemote_domains nmatch db remote
    obtain ⟨p', hp', hp'h, hperm, hupdated⟩ := @verifyRemote_mem nmatch db remote p hmem
    split at h
    · rename_i db1 hverify
      rw [hverify] at htied hdomains hp'
      obtain ⟨rfl, hgrant⟩ := Prod.mk.inj (some.inj h)
      have hgood := good_grant htied.1 htied.2 hp' hbound.1 (by rw [hdomains.2]; exact hbound.2)
      rw [grant_congr db1 d.handle hp'h hperm hupdated, hgrant, hp'h, hhandle] at hgood
      exact hgood
    · rename_i db1 hverify
      rw [hverify] at htied
      cases h
      exact htied
  · cases h
    exact ⟨hs, hh⟩

/-- **Each step keeps the database sound and the permissions apart.** -/
theorem Connected.Good.step {s s' : Connected} (hgood : s.Good) (hok : e.Ok nmatch s)
    (hstep : s.step nmatch md5 e = some s') : s'.Good := by
  obtain ⟨hs, hh⟩ := hgood
  cases e with
  | localId name key =>
    cases hstep
    exact good_validateLocalId hs hh name key
  | remoteId q =>
    cases hstep
    exact good_validateRemoteId hs hh q
  | handshake remote valid commonName =>
    cases hstep
    exact good_verifyRemoteCredentials hs hh hok.1 hok.2
  | localPerm domainId handle =>
    obtain ⟨⟨ret, perm, db⟩, hperm, rfl⟩ := map_eq_some_iff.1 hstep
    exact good_validateLocalPerm hs hh hperm
  | peerPerm lcl remote dtls =>
    obtain ⟨⟨ret, perm, db⟩, hperm, rfl⟩ := map_eq_some_iff.1 hstep
    exact good_validatePeerPerm hs hh hok hperm
  | update u =>
    obtain ⟨db, hdb, rfl⟩ := map_eq_some_iff.1 hstep
    exact ⟨hs.update hok hdb, hh.update hs hok hdb⟩

end

/-- **Connected participants follow the rules in force**, while rules are left alone and no policy cuts a clone off its
rule: clones are tied to the first rule that admits them, and others pass no check. -/
theorem followsPolicy_of_run {nmatch : Name → Name → Bool} {md5 : Name → List Nat} {es : List ConnectEvent}
    {s : Connected} (hr : Run (Connected.step nmatch md5) (fun s e => e.Ok nmatch s) Connected.empty es s)
    {u : PolicyUpdate} (hok : s.db.UpdateOk nmatch u) :
    ∃ s', s.step nmatch md5 (.update u) = some s' ∧ FollowsPolicy nmatch s.held s.db u s'.db := by
  have hgood : s.Good :=
    hr.invariant (fun _ s => s.Good) good_empty fun _ _ _ _ hgood hok hstep => hgood.step hok hstep
  obtain ⟨db', hdb', hfollows⟩ := followsPolicy_update hgood.1 hgood.2 hok
  exact ⟨⟨db', s.held⟩, by simp only [Connected.step, hdb', map_some], hfollows⟩

instance Db.NotRule.instDecidable (db : Db) (handle : Nat) : Decidable (db.NotRule handle) :=
  inferInstanceAs (Decidable (∀ p ∈ db.participants, p.handle = handle → p.cloned ≠ none))

instance Db.UpdateOk.instDecidable (nmatch : Name → Name → Bool) (db : Db) (u : PolicyUpdate) :
    Decidable (db.UpdateOk nmatch u) :=
  decidable_of_iff
    ((∀ p ∈ db.participants, p.cloned ≠ none → (slot u.participants p.name).isNone = true) ∧
      u.orderAfter db.stands = u.participants.map PolicyParticipant.name ∧
      (∀ p ∈ db.participants, ∀ r ∈ db.participants, p.cloned = some r.handle → r.handle ≠ p.handle →
        (slot u.participants r.name).isSome = (u.ruleFor nmatch p.name).isSome ∧
          (u.ruleFor nmatch p.name).all (fun q => !q.blacklist) = true) ∧
      db.numPermissions < 2 ^ 16 ∧ db.numDomains < 2 ^ 16)
    ⟨fun ⟨hnames, horder, hrules, hnumbers⟩ => ⟨hnames, horder, hrules, hnumbers⟩,
      fun h => ⟨h.names, h.order, h.rules, h.numbers⟩⟩

instance ConnectEvent.Ok.instDecidable (nmatch : Name → Name → Bool) (s : Connected) :
    ∀ e : ConnectEvent, Decidable (e.Ok nmatch s)
  | .localId _ _ | .remoteId _ | .localPerm _ _ => .isTrue trivial
  | .handshake remote valid commonName =>
    inferInstanceAs (Decidable (s.db.NotRule remote ∧ ((valid && commonName.isSome) = true ∨
      ∀ p ∈ s.db.participants, p.cloned = some remote → p.handle = remote)))
  | .peerPerm _ remote _ => inferInstanceAs (Decidable (s.db.NotRule remote))
  | .update u => inferInstanceAs (Decidable (s.db.UpdateOk nmatch u))

def connecting : List ConnectEvent :=
  [.update (namesOnly [['a', '*'], ['b', '*']] (by decide)), .localId ['a', '1'] [7], .localPerm 0 3,
    .remoteId ⟨some .identityToken, ['x'], [8]⟩, .handshake 4 true (some ['b', '1']), .peerPerm 3 4 none]

def bothConnected : Connected :=
  (exec (step glob fun _ => []) (fun s e => e.Ok glob s) .empty connecting).get (by decide)

theorem followsPolicy_connecting : bothConnected.held = [(4, 65538), (3, 65537)] ∧
    ∃ s', bothConnected.step glob (fun _ => []) (.update (namesOnly [['a', '*']] (by decide))) = some s' ∧
      FollowsPolicy glob bothConnected.held bothConnected.db (namesOnly [['a', '*']] (by decide)) s'.db :=
  ⟨by decide, followsPolicy_of_run Run.of_isSome (by decide)⟩

/-- **Permissions of a participant that is gone pass no check, whoever has come since.** -/
theorem passesNone_of_gone (gone : Nat) (hr : Run (step nmatch md5) (fun s e => e.Ok nmatch s) .empty es s)
    (hn : s.db.numPermissions < 2 ^ 16 ∧ s.db.numDomains < 2 ^ 16) (hheld : (gone, perm) ∈ s.held)
    (hgone : ∀ p ∈ s.db.participants, p.handle ≠ gone) : s.db.PassesNone nmatch perm := by
  have hgood := hr.invariant (fun _ s => s.Good) good_empty fun _ _ _ _ hgood hok hstep => hgood.step hok hstep
  obtain ⟨_, n, rfl, hd, hd', hle, hown⟩ := hgood.2 _ hheld
  refine Db.passesNone_of_permPars (Db.permOf_ne_one hd (hd'.trans_lt hn.2))
    (Db.permPars_of_unused (hle.trans_lt hn.1) fun p hp hnum => ?_)
  -- The number was the participant's alone, and is not given again.
  by_contra hne
  exact hgone p hp (hown p hp hne (by simpa [numbers, eq_comm] using hnum.symm))

theorem passesNone_peer : ∃ s, Run (step glob fun _ => []) (fun s e => e.Ok glob s) .empty
    (connecting ++ [.update (namesOnly [['a', '*']] (by decide))]) s ∧ s.db.PassesNone glob 65538 :=
  ⟨_, Run.of_isSome, passesNone_of_gone 4 Run.of_isSome (by decide) (by decide) (by decide)⟩

def connectedAs (name : Name) : List ConnectEvent :=
  [.update (namesOnly [['a', '*']] (by decide)), .localId name [7], .localPerm 0 2]

def blacklistedRule : PolicyUpdate := ⟨0, [⟨['a', '*'], true, [], List.nodup_nil⟩], by decide⟩

/-- **A rule is replaced by another that admits the participant, which is removed; a rule is blacklisted, and the
participant creates topics; a participant with a rule's name is set in its place, and points to what is gone.** -/
theorem not_followsPolicy :
    (∃ s s', Run (Connected.step glob fun _ => []) (fun _ _ => True) .empty (connectedAs ['a', '1']) s ∧
      s.step glob (fun _ => []) (.update (namesOnly [['*']] (by decide))) = some s' ∧
      s'.db.participants.map Participant.name = [['*']] ∧
      ¬ FollowsPolicy glob s.held s.db (namesOnly [['*']] (by decide)) s'.db) ∧
    (∃ s s', Run (Connected.step glob fun _ => []) (fun _ _ => True) .empty (connectedAs ['a', '1']) s ∧
      s.step glob (fun _ => []) (.update blacklistedRule) = some s' ∧
      s'.db.checkCreateTopic glob 65537 ['t'] = some .ok ∧ ¬ FollowsPolicy glob s.held s.db blacklistedRule s'.db) ∧
    ∃ s s', Run (Connected.step glob fun _ => []) (fun _ _ => True) .empty (connectedAs ['a', '*']) s ∧
      s.step glob (fun _ => []) (.update (namesOnly [['a', '*']] (by decide))) = some s' ∧
      s'.db.participants.map (fun p => (p.handle, p.cloned)) = [(2, some 1)] ∧
      ¬ FollowsPolicy glob s.held s.db (namesOnly [['a', '*']] (by decide)) s'.db := by
  refine ⟨⟨_, _, Run.of_isSome, eq_some_of_isSome (by decide), by decide, fun h => ?_⟩,
    ⟨_, _, Run.of_isSome, eq_some_of_isSome (by decide), by decide, fun h => ?_⟩,
    ⟨_, _, Run.of_isSome, eq_some_of_isSome (by decide), by decide, fun h => ?_⟩⟩
  · obtain ⟨p', hp', hh, -⟩ := h.tied _ mem_cons_self ⟨1, rfl, by decide⟩ _ rfl
    have hhandle := mem_map_of_mem (f := Participant.handle) hp'
    rw [hh] at hhandle
    exact absurd hhandle (by decide)
  · have hdenied := h.denied _ mem_cons_self ⟨1, rfl, by decide⟩ (by decide) 65537 (by decide)
    exact absurd (hdenied.createTopic ['t']) (by decide)
  · exact absurd (h.pointers _ mem_cons_self 1 rfl) (by decide)

end Qeo.Access
