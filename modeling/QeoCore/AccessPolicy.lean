import QeoCore.AccessLookup
/-!
# AccessPolicy — an update as the policy layer makes it

The policy layer goes through the participants of a policy twice: it looks each one up or adds it, and sets it; then it
does the same again, with its topic rules.  `settled` is what both passes leave.
-/
namespace Qeo.Access

open List Option Function Nat

structure PolicyTopic where
  name : Name
  mode : Mode
  blacklist : Bool
  deriving DecidableEq

structure PolicyParticipant where
  name : Name
  blacklist : Bool
  topics : List PolicyTopic
  nodup : (topics.map PolicyTopic.name).Nodup := by decide

structure PolicyUpdate where
  domainId : Nat
  participants : List PolicyParticipant
  nodup : (participants.map PolicyParticipant.name).Nodup := by decide

/-! ## The calls -/

namespace Db

def addPolicyDomain (db : Db) (domainId : Nat) : Db :=
  match db.domainHandle domainId with
  | some handle => db.setDomainAccess handle domainId secret false
  | none => db.addDomain.2.setDomainAccess db.addDomain.1 domainId secret false

def addPolicyParticipant (db : Db) (q : PolicyParticipant) : Nat × Db :=
  match db.participantHandle q.name with
  | some handle => (handle, db.setParticipantAccess handle q.name secret q.blacklist)
  | none =>
    (db.addParticipant.1, db.addParticipant.2.setParticipantAccess db.addParticipant.1 q.name secret q.blacklist)

def addPolicyTopic (participant domainId : Nat) (db : Db) (t : PolicyTopic) : Db :=
  match db.getRuleHandle (.participant participant) .topic (some t.name) t.mode with
  | some index => db.setRuleAccess (.participant participant) .topic index (some t.name) t.mode domainId t.blacklist
  | none =>
    match db.addRuleTo (.participant participant) .topic with
    | (some index, db) =>
      db.setRuleAccess (.participant participant) .topic index (some t.name) t.mode domainId t.blacklist
    | (none, db) => db

def participantOnly (db : Db) (q : PolicyParticipant) : Db := (db.addPolicyParticipant q).2

def participantTopics (domainId : Nat) (db : Db) (q : PolicyParticipant) : Db :=
  q.topics.foldl (addPolicyTopic (db.addPolicyParticipant q).1 domainId) (db.addPolicyParticipant q).2

def policyPasses (db : Db) (u : PolicyUpdate) : Db :=
  u.participants.foldl (participantTopics u.domainId)
    (u.participants.foldl participantOnly (db.updateStart.addPolicyDomain u.domainId))

def policyUpdate (nmatch : Name → Name → Bool) (db : Db) (u : PolicyUpdate) : Option Db :=
  (db.policyPasses u).updateDone nmatch

end Db

/-! ## The topics of a participant -/

def applyTopic (domainId : Nat) (s : List Rule × Nat) (t : PolicyTopic) : List Rule × Nat :=
  match ruleHandle s.1 (some t.name) t.mode with
  | some index => (setRule s.1 index (some t.name) t.mode domainId t.blacklist, s.2)
  | none => (setRule (addRule s.1 (s.2 + 1)) (s.2 + 1) (some t.name) t.mode domainId t.blacklist, s.2 + 1)

def applyTopics (domainId : Nat) (s : List Rule × Nat) (ts : List PolicyTopic) : List Rule × Nat :=
  ts.foldl (applyTopic domainId) s

def Db.withTopics (db : Db) (handle : Nat) (s : List Rule × Nat) : Db :=
  { db with
    participants := db.participants.map fun p =>
      if p.handle = handle then { p with topics := s.1, refreshed := true } else p
    topicCounter := s.2 }

open Db

section

variable {db : Db} {handle domainId : Nat} {s : List Rule × Nat}

theorem getParticipant_withTopics (hp : db.getParticipant handle = some p) :
    (db.withTopics handle s).getParticipant handle = some { p with topics := s.1, refreshed := true } := by
  unfold getParticipant withTopics at *
  have hpred : (fun q : Participant => q.handle == handle) ∘
      (fun p => if p.handle = handle then { p with topics := s.1, refreshed := true } else p) =
      fun q => q.handle == handle := by
    funext q
    by_cases h : q.handle = handle
    · simp [h]
    · simp [h]
  have hh : p.handle = handle := by simpa using find?_some hp
  rw [find?_map, hpred, hp, map_some, if_pos hh]

theorem modifyRules_withTopics (touch : Bool) :
    (db.withTopics handle s).modifyRules (.participant handle) .topic touch f = db.withTopics handle (f s.1, s.2) := by
  unfold modifyRules modifyParticipant withTopics
  simp only [List.map_map]
  congr 1
  refine map_congr_left fun p _ => ?_
  by_cases h : p.handle = handle
  · simp [h, Participant.withRules, Participant.rules]
  · simp [h]

theorem setRuleAccess_withTopics (hp : db.getParticipant handle = some p)
    (hindex : ∃ r ∈ s.1, r.index = index) (name : Option Name) (mode : Mode) (id : Nat) (blacklist : Bool) :
    (db.withTopics handle s).setRuleAccess (.participant handle) .topic index name mode id blacklist =
      db.withTopics handle (setRule s.1 index name mode id blacklist, s.2) := by
  have hany : s.1.any (·.index == index) = true := by simpa using hindex
  unfold setRuleAccess rulesOf
  simp only [getParticipant_withTopics hp, map_some, Participant.rules]
  rw [if_pos hany, modifyRules_withTopics]

theorem ruleHandle_mem (h : ruleHandle rules name mode = some index) : ∃ r ∈ rules, r.index = index := by
  obtain ⟨r, hr, rfl⟩ := map_eq_some_iff.1 h
  exact ⟨r, mem_of_find?_eq_some hr, rfl⟩

theorem addPolicyTopic_withTopics (hp : db.getParticipant handle = some p) (t : PolicyTopic) :
    addPolicyTopic handle domainId (db.withTopics handle s) t =
      db.withTopics handle (applyTopic domainId s t) := by
  unfold addPolicyTopic applyTopic getRuleHandle rulesOf
  simp only [getParticipant_withTopics hp, map_some, bind_some, Participant.rules]
  cases hf : ruleHandle s.1 (some t.name) t.mode with
  | some index => exact setRuleAccess_withTopics hp (ruleHandle_mem hf) _ _ _ _
  | none =>
    have hadd : (db.withTopics handle s).addRuleTo (.participant handle) .topic =
        (some (s.2 + 1), db.withTopics handle (addRule s.1 (s.2 + 1), s.2 + 1)) := by
      unfold addRuleTo rulesOf
      simp only [getParticipant_withTopics hp, map_some, counter]
      rw [modifyRules_withTopics]
      rfl
    rw [hadd]
    apply setRuleAccess_withTopics hp
    exact ⟨{ Rule.empty with index := s.2 + 1 }, mem_append_right _ (mem_singleton_self _), rfl⟩

theorem addPolicyTopics_withTopics (hp : db.getParticipant handle = some p) :
    ∀ (ts : List PolicyTopic) (s : List Rule × Nat),
      ts.foldl (addPolicyTopic handle domainId) (db.withTopics handle s) =
        db.withTopics handle (applyTopics domainId s ts)
  | [], _ => rfl
  | t :: ts, s => by
    rw [foldl_cons, addPolicyTopic_withTopics hp, addPolicyTopics_withTopics hp ts]
    rfl

theorem applyTopic_counter (t : PolicyTopic) : s.2 ≤ (applyTopic domainId s t).2 := by
  unfold applyTopic
  split
  · exact Nat.le_refl _
  · exact le_succ _

theorem applyTopics_counter : ∀ (ts : List PolicyTopic) (s : List Rule × Nat), s.2 ≤ (applyTopics domainId s ts).2
  | [], _ => Nat.le_refl _
  | t :: ts, _ => Nat.le_trans (applyTopic_counter t) (applyTopics_counter ts _)

end

/-! ## The participants -/

def slot (v : List PolicyParticipant) (name : Name) : Option (PolicyParticipant × Nat) :=
  v.zipIdx.find? fun qi => qi.1.name == name

def mark (number : Nat) (q : PolicyParticipant) (p : Participant) : Participant :=
  { p with access := secret, blacklist := q.blacklist, refreshed := true, inputNumber := number }

def marked (first : Nat) (v : List PolicyParticipant) (p : Participant) : Participant :=
  match slot v p.name with
  | none => p
  | some (q, i) => mark (first + i) q p

def settled (first : Nat) (v : List PolicyParticipant) (topics : Name → List Rule) (p : Participant) : Participant :=
  match slot v p.name with
  | none => p
  | some (q, i) => { mark (first + i) q p with topics := topics p.name }

@[simp] theorem blank_name (handle : Nat) (name : Name) : (blank handle name).name = name := rfl

def Db.freshFor (db : Db) (v : List PolicyParticipant) : List Participant :=
  (v.filter fun q => !db.participants.any (·.name == q.name)).zipIdx.map fun qi =>
    blank (db.numIds + 1 + qi.2) qi.1.name

abbrev Db.merged (db : Db) (v : List PolicyParticipant) : List Participant := db.participants ++ db.freshFor v

structure Db.Fits (db : Db) (v : List PolicyParticipant) : Prop where
  handles : (db.participants.map Participant.handle).Nodup
  bounded : ∀ p ∈ db.participants, p.handle ≤ db.numIds
  single : ∀ q ∈ v, ∀ p ∈ db.participants, ∀ p' ∈ db.participants, p.name = q.name → p'.name = q.name → p = p'

section

variable {v done : List PolicyParticipant} {q : PolicyParticipant} {name : Name} {i : Nat}

theorem slot_append : slot (done ++ [q]) name =
    (slot done name).or (if q.name = name then some (q, done.length) else none) := by
  unfold slot
  rw [zipIdx_append]
  by_cases h : q.name = name
  · simp [h]
  · simp [h]

theorem slot_some (h : slot v name = some (q, i)) : v[i]? = some q ∧ q.name = name := by
  have hmem := mem_of_find?_eq_some h
  exact ⟨mem_zipIdx_iff_getElem?.1 hmem, by simpa using find?_some h⟩

theorem slot_none : slot v name = none ↔ ∀ q ∈ v, q.name ≠ name := by
  unfold slot
  rw [find?_eq_none]
  constructor
  · intro h q hq
    obtain ⟨i, hi⟩ := mem_iff_getElem?.1 hq
    simpa using h (q, i) (mem_zipIdx_iff_getElem?.2 hi)
  · rintro h ⟨q, i⟩ hqi
    simpa using h q (mem_of_getElem? (mem_zipIdx_iff_getElem?.1 hqi))

theorem slot_eq_some_iff (hv : (v.map PolicyParticipant.name).Nodup) :
    slot v name = some (q, i) ↔ v[i]? = some q ∧ q.name = name := by
  refine ⟨slot_some, fun ⟨hi, hname⟩ => ?_⟩
  cases hs : slot v name with
  | none => exact absurd hname (slot_none.1 hs q (mem_of_getElem? hi))
  | some qi =>
    obtain ⟨q', j⟩ := qi
    obtain ⟨hj, hname'⟩ := slot_some hs
    have hij : (v.map PolicyParticipant.name)[j]? = (v.map PolicyParticipant.name)[i]? := by
      rw [getElem?_map, getElem?_map, hi, hj, map_some, map_some, hname, hname']
    have hlt : j < (v.map PolicyParticipant.name).length := by
      rw [length_map]
      exact (List.getElem?_eq_some_iff.1 hj).1
    obtain rfl := (getElem?_inj hlt hv).1 hij
    rw [hi] at hj
    rw [Option.some.inj hj]

end

section
variable (first : Nat) (v : List PolicyParticipant)

@[simp] theorem marked_name (p : Participant) : (marked first v p).name = p.name := by
  unfold marked
  split <;> rfl

@[simp] theorem marked_handle (p : Participant) : (marked first v p).handle = p.handle := by
  unfold marked
  split <;> rfl

@[simp] theorem settled_name (T : Name → List Rule) (p : Participant) : (settled first v T p).name = p.name := by
  unfold settled
  split <;> rfl

@[simp] theorem settled_handle (T : Name → List Rule) (p : Participant) :
    (settled first v T p).handle = p.handle := by
  unfold settled
  split <;> rfl

end

def Db.touch (db : Db) (q : PolicyParticipant) : Db :=
  { db with
    participants := db.participants.map fun p => if p.name = q.name then mark db.inputCounter q p else p
    inputCounter := db.inputCounter + 1 }

section

variable {db : Db} {v : List PolicyParticipant} {q : PolicyParticipant} {p : Participant}

theorem eq_of_handle {ps : List Participant} (h : (ps.map Participant.handle).Nodup) (hp : p ∈ ps)
    (hp' : p' ∈ ps) (heq : p.handle = p'.handle) : p = p' :=
  inj_on_of_nodup_map h hp hp' heq

theorem find?_handle {ps : List Participant} (h : (ps.map Participant.handle).Nodup) (hp : p ∈ ps) :
    ps.find? (·.handle == p.handle) = some p :=
  FirstMatch.find?_of_unique hp (beq_self_eq_true _) fun _ hp' hh => eq_of_handle h hp' hp (eq_of_beq hh)

theorem getParticipant_of_mem (h : (db.participants.map Participant.handle).Nodup) (hp : p ∈ db.participants) :
    db.getParticipant p.handle = some p :=
  find?_handle h hp

theorem Db.Fits.handle_iff (hfit : db.Fits v) (hq : q ∈ v) (hp : p ∈ db.participants) (hname : p.name = q.name)
    (hp' : p' ∈ db.participants) : p'.handle = p.handle ↔ p'.name = q.name := by
  constructor
  · intro h
    rw [eq_of_handle hfit.handles hp' hp h, hname]
  · intro h
    rw [hfit.single q hq p' hp' p hp h hname]

theorem addPolicyParticipant_found (hfit : db.Fits v) (hq : q ∈ v) (hp : p ∈ db.participants)
    (hname : p.name = q.name) : db.addPolicyParticipant q = (p.handle, db.touch q) := by
  have hhandle : db.participantHandle q.name = some p.handle := by
    have hfind : db.participants.find? (·.name == q.name) = some p :=
      FirstMatch.find?_of_unique hp (beq_iff_eq.2 hname) fun p' hp' hn =>
        hfit.single q hq p' hp' p hp (eq_of_beq hn) hname
    rw [participantHandle, hfind]
    rfl
  unfold addPolicyParticipant setParticipantAccess
  simp only [hhandle, getParticipant_of_mem hfit.handles hp, isSome_some, if_true]
  congr 2
  refine map_congr_left fun p' hp' => ?_
  -- the handle and the name pick out the same participant
  simp only [hfit.handle_iff hq hp hname hp']
  split
  · rename_i hn
    rw [← hn]
    rfl
  · rfl

theorem addPolicyParticipant_new (hfit : db.Fits v) (hnone : ∀ p ∈ db.participants, p.name ≠ q.name) :
    db.addPolicyParticipant q = (db.numIds + 1, { db with
        participants := db.participants ++ [blank (db.numIds + 1) q.name]
        numIds := db.numIds + 1 : Db }.touch q) := by
  have hhandle : db.participantHandle q.name = none := by
    unfold participantHandle
    rw [find?_eq_none.2 fun p hp => by simpa using hnone p hp]
    rfl
  have hlt : ∀ p ∈ db.participants, p.handle ≠ db.numIds + 1 := fun p hp => by
    have := hfit.bounded p hp
    omega
  have hget : (db.addParticipant.2.getParticipant (db.numIds + 1)).isSome = true := by
    simp [getParticipant, addParticipant, blank]
  unfold addPolicyParticipant setParticipantAccess
  simp only [hhandle]
  have hfst : db.addParticipant.1 = db.numIds + 1 := rfl
  rw [hfst, if_pos hget]
  unfold modifyParticipant touch addParticipant
  simp only [map_append, map_cons, map_nil]
  congr 3
  · refine map_congr_left fun p hp => ?_
    rw [if_neg (hlt p hp), if_neg (hnone p hp)]
  · simp [blank, mark]

theorem marked_append (hq : ∀ q' ∈ done, q'.name ≠ q.name) (first : Nat) (p : Participant) :
    marked first (done ++ [q]) p = if p.name = q.name then mark (first + done.length) q p else marked first done p := by
  unfold marked
  rw [slot_append]
  by_cases h : p.name = q.name
  · rw [h, slot_none.2 hq]
    simp
  · rw [if_neg (Ne.symm h), if_neg h, or_none]

theorem touch_marked (hq : ∀ q' ∈ done, q'.name ≠ q.name) (first : Nat) (p : Participant) :
    (if (marked first done p).name = q.name then mark (first + done.length) q (marked first done p)
      else marked first done p) = marked first (done ++ [q]) p := by
  rw [marked_append hq, marked_name]
  by_cases hp : p.name = q.name
  · have hnone : marked first done p = p := by
      unfold marked
      rw [hp, slot_none.2 hq]
    rw [if_pos hp, if_pos hp, hnone]
  · rw [if_neg hp, if_neg hp]

theorem settled_append (hq : ∀ q' ∈ done, q'.name ≠ q.name) (first : Nat)
    (T : Name → List Rule) (rules : List Rule) (p : Participant) :
    settled first (done ++ [q]) (Function.update T q.name rules) p =
      if p.name = q.name then { mark (first + done.length) q p with topics := rules } else settled first done T p := by
  unfold settled
  rw [slot_append]
  by_cases h : p.name = q.name
  · rw [h, slot_none.2 hq]
    simp
  · rw [if_neg (Ne.symm h), if_neg h, or_none, update_of_ne h]

theorem freshFor_append (done : List PolicyParticipant) : db.freshFor (done ++ [q]) = db.freshFor done ++
    if ∃ p ∈ db.participants, p.name = q.name then []
    else [blank (db.numIds + 1 + (db.freshFor done).length) q.name] := by
  unfold freshFor
  by_cases h : ∃ p ∈ db.participants, p.name = q.name
  · have hany : db.participants.any (·.name == q.name) = true := by simpa using h
    simp [h, hany]
  · have hany : db.participants.any (·.name == q.name) = false := by simpa using h
    simp [h, hany, zipIdx_append]

theorem freshFor_names (v : List PolicyParticipant) : (db.freshFor v).map Participant.name =
    (v.filter fun q => !db.participants.any (·.name == q.name)).map PolicyParticipant.name := by
  unfold freshFor
  rw [List.map_map]
  conv_rhs => rw [← zipIdx_map_fst 0 (v.filter _), List.map_map]
  rfl

theorem freshFor_handles (v : List PolicyParticipant) : (db.freshFor v).map Participant.handle =
    range' (db.numIds + 1) (db.freshFor v).length := by
  unfold freshFor
  rw [List.map_map, length_map, length_zipIdx]
  generalize v.filter _ = w
  have hsnd := zipIdx_map_snd 0 w
  calc w.zipIdx.map (Participant.handle ∘ fun qi => blank (db.numIds + 1 + qi.2) qi.1.name)
      = (w.zipIdx.map Prod.snd).map (db.numIds + 1 + ·) := by rw [List.map_map]; rfl
    _ = range' (db.numIds + 1) w.length := by rw [hsnd, map_add_range']

theorem mem_freshFor (hp : p ∈ db.freshFor v) : ∃ q ∈ v, ∃ handle, p = blank handle q.name ∧ db.numIds < handle ∧
    ∀ p' ∈ db.participants, p'.name ≠ q.name := by
  obtain ⟨⟨q, i⟩, hqi, rfl⟩ := mem_map.1 hp
  obtain ⟨hq, hnone⟩ := mem_filter.1 (mem_of_getElem? (mem_zipIdx_iff_getElem?.1 hqi))
  exact ⟨q, hq, _, rfl, by omega, by simpa using hnone⟩

theorem Db.Fits.map (hfit : db.Fits v) (hname : ∀ p, (f p).name = p.name)
    (hhandle : ∀ p, (f p).handle = p.handle) {db' : Db} (hps : db'.participants = db.participants.map f)
    (hids : db'.numIds = db.numIds) : db'.Fits v := by
  refine ⟨?_, ?_, ?_⟩
  · have hcomp : db'.participants.map Participant.handle = db.participants.map Participant.handle := by
      rw [hps, List.map_map]
      exact map_congr_left fun p _ => hhandle p
    rw [hcomp]
    exact hfit.handles
  · intro p' hp'
    rw [hps] at hp'
    obtain ⟨p, hp, rfl⟩ := mem_map.1 hp'
    rw [hhandle, hids]
    exact hfit.bounded p hp
  · intro q hq a' ha' b' hb' han hbn
    rw [hps] at ha' hb'
    obtain ⟨a, ha, rfl⟩ := mem_map.1 ha'
    obtain ⟨b, hb, rfl⟩ := mem_map.1 hb'
    rw [hname] at han hbn
    rw [hfit.single q hq a ha b hb han hbn]

abbrev Db.withFresh (db : Db) (v : List PolicyParticipant) : Db :=
  { db with participants := db.merged v, numIds := db.numIds + (db.freshFor v).length }

theorem Db.Fits.withFresh (hfit : db.Fits v) (hdone : (done.map PolicyParticipant.name).Nodup) :
    (db.withFresh done).Fits v := by
  have hbound : ∀ h ∈ (db.freshFor done).map Participant.handle,
      db.numIds < h ∧ h ≤ db.numIds + (db.freshFor done).length := by
    intro h hh
    rw [freshFor_handles, mem_range'_1] at hh
    omega
  refine ⟨?_, ?_, ?_⟩
  · rw [map_append, nodup_append]
    refine ⟨hfit.handles, ?_, fun h hh h' hh' heq => ?_⟩
    · rw [freshFor_handles]
      exact nodup_range'
    obtain ⟨p, hp, rfl⟩ := mem_map.1 hh
    have := hfit.bounded p hp
    have := hbound h' hh'
    omega
  · intro p hp
    rcases mem_append.1 hp with hold | hnew
    · exact Nat.le_add_right_of_le (hfit.bounded p hold)
    · exact (hbound _ (mem_map_of_mem hnew)).2
  intro q hq a ha b hb han hbn
  rcases mem_append.1 ha with ha | ha
  · rcases mem_append.1 hb with hb | hb
    · exact hfit.single q hq a ha b hb han hbn
    · obtain ⟨q', _, _, rfl, _, hnone⟩ := mem_freshFor hb
      exact absurd (han.trans hbn.symm) (hnone a ha)
  · rcases mem_append.1 hb with hb | hb
    · obtain ⟨q', _, _, rfl, _, hnone⟩ := mem_freshFor ha
      exact absurd (hbn.trans han.symm) (hnone b hb)
    have hnodup : ((db.freshFor done).map Participant.name).Nodup := by
      rw [freshFor_names]
      exact hdone.sublist (filter_sublist.map _)
    exact inj_on_of_nodup_map hnodup ha hb (han.trans hbn.symm)

theorem Db.Fits.handles_withFresh (hfit : db.Fits v) (hv : (v.map PolicyParticipant.name).Nodup) :
    ((db.merged v).map Participant.handle).Nodup :=
  (hfit.withFresh hv).handles

theorem Db.Fits.mono (hfit : db.Fits v) (h : ∀ q ∈ w, q ∈ v) : db.Fits w :=
  ⟨hfit.handles, hfit.bounded, fun q hq => hfit.single q (h q hq)⟩

theorem names_append (hv : ((done ++ [q]).map PolicyParticipant.name).Nodup) :
    (done.map PolicyParticipant.name).Nodup ∧ ∀ q' ∈ done, q'.name ≠ q.name := by
  rw [map_append, nodup_append] at hv
  exact ⟨hv.1, fun q' hq' => hv.2.2 q'.name (mem_map_of_mem hq') q.name (by simp)⟩

theorem participantOnly_foldl (hv : (v.map PolicyParticipant.name).Nodup) (hfit : db.Fits v) :
    v.foldl participantOnly db = { db with
        participants := (db.participants ++ db.freshFor v).map (marked db.inputCounter v)
        numIds := db.numIds + (db.freshFor v).length
        inputCounter := db.inputCounter + v.length } := by
  induction v using reverseRecOn with
  | nil =>
    have hid : marked db.inputCounter [] = id := rfl
    simp [hid, freshFor]
  | append_singleton done q ih =>
    obtain ⟨hdone, hq⟩ := names_append hv
    have ih := ih hdone (hfit.mono fun q' hq' => mem_append_left _ hq')
    have hmem : q ∈ done ++ [q] := by simp
    -- the state between, and what is looked up in it
    generalize hmid : ({ db with
        participants := (db.participants ++ db.freshFor done).map (marked db.inputCounter done)
        numIds := db.numIds + (db.freshFor done).length
        inputCounter := db.inputCounter + done.length } : Db) = mid at ih
    have hmidfit : mid.Fits (done ++ [q]) :=
      (hfit.withFresh hdone).map (marked_name _ _) (marked_handle _ _) (by rw [← hmid]) (by rw [← hmid])
    rw [foldl_append, ih, foldl_cons, foldl_nil, participantOnly, freshFor_append]
    by_cases h : ∃ p ∈ db.participants, p.name = q.name
    · obtain ⟨p, hp, hname⟩ := h
      have hp' : marked db.inputCounter done p ∈ mid.participants := by
        rw [← hmid]
        exact mem_map_of_mem (mem_append_left _ hp)
      rw [addPolicyParticipant_found hmidfit hmem hp' (by rw [marked_name, hname]), if_pos ⟨p, hp, hname⟩, ← hmid]
      simp only [touch, List.map_map, append_nil, length_append, length_singleton, Nat.add_assoc]
      congr 1
      exact map_congr_left fun p _ => touch_marked hq _ p
    have hnone : ∀ p ∈ mid.participants, p.name ≠ q.name := by
      intro p' hp'
      rw [← hmid] at hp'
      obtain ⟨p, hp, rfl⟩ := mem_map.1 hp'
      rw [marked_name]
      rcases mem_append.1 hp with hold | hnew
      · exact fun hname => h ⟨p, hold, hname⟩
      · obtain ⟨q', hq', _, rfl, _⟩ := mem_freshFor hnew
        exact hq q' hq'
    rw [addPolicyParticipant_new hmidfit hnone, if_neg h, ← hmid]
    simp only [touch, length_append, length_singleton, Nat.add_assoc]
    congr 1
    rw [← append_assoc, Nat.add_comm 1]
    generalize db.participants ++ db.freshFor done = ps
    rw [map_append, map_append, List.map_map, map_singleton, map_singleton, marked_append hq]
    congr 1
    · exact map_congr_left fun p _ => touch_marked hq _ p
    · rw [if_pos (blank_name _ _), if_pos (blank_name _ _)]

theorem participantTopics_found (hfit : db.Fits v) (hq : q ∈ v) (hp : p ∈ db.participants) (hname : p.name = q.name) :
    db.participantTopics domainId q = { db with
        participants := db.participants.map fun p' =>
          if p'.name = q.name
          then { mark db.inputCounter q p' with
            topics := (applyTopics domainId (p.topics, db.topicCounter) q.topics).1 }
          else p'
        topicCounter := (applyTopics domainId (p.topics, db.topicCounter) q.topics).2
        inputCounter := db.inputCounter + 1 } := by
  have hiff (p' : Participant) (hp' : p' ∈ db.participants) := hfit.handle_iff hq hp hname hp'
  unfold participantTopics
  rw [addPolicyParticipant_found hfit hq hp hname]
  -- what it is looked up with has its topics already
  have hsame : db.touch q = (db.touch q).withTopics p.handle (p.topics, db.topicCounter) := by
    unfold withTopics touch
    simp only [List.map_map]
    congr 1
    refine map_congr_left fun p' hp' => ?_
    by_cases h : p'.name = q.name
    · obtain rfl := hfit.single q hq p' hp' p hp h hname
      simp [h, mark]
    · simp [h, hiff p' hp']
  have hmem : mark db.inputCounter q p ∈ (db.touch q).participants := mem_map.2 ⟨p, hp, if_pos hname⟩
  have hfit' : (db.touch q).Fits v := hfit.map (fun p => by split <;> rfl) (fun p => by split <;> rfl) rfl rfl
  have hget : (db.touch q).getParticipant p.handle = some (mark db.inputCounter q p) :=
    getParticipant_of_mem hfit'.handles hmem
  rw [hsame, addPolicyTopics_withTopics hget]
  unfold withTopics touch
  simp only [List.map_map]
  congr 1
  refine map_congr_left fun p' hp' => ?_
  by_cases h : p'.name = q.name
  · have hh : (mark db.inputCounter q p').handle = p.handle := (hiff p' hp').2 h
    simp only [comp_apply, if_pos h, if_pos hh]
    rfl
  · simp [h, hiff p' hp']

theorem participantTopics_foldl (domainId : Nat) (hv : (v.map PolicyParticipant.name).Nodup) (hfit : db.Fits v)
    (hthere : ∀ q ∈ v, ∃ p ∈ db.participants, p.name = q.name) :
    ∃ topics n, db.topicCounter ≤ n ∧ v.foldl (participantTopics domainId) db = { db with
          participants := db.participants.map (settled db.inputCounter v topics)
          topicCounter := n
          inputCounter := db.inputCounter + v.length } ∧
      ∀ q ∈ v, ∀ p ∈ db.participants, p.name = q.name →
        ∃ m, db.topicCounter ≤ m ∧ (applyTopics domainId (p.topics, m) q.topics).2 ≤ n ∧
          topics q.name = (applyTopics domainId (p.topics, m) q.topics).1 := by
  induction v using reverseRecOn with
  | nil =>
    have hid : settled db.inputCounter [] (fun _ => []) = id := rfl
    exact ⟨fun _ => [], db.topicCounter, Nat.le_refl _, by simp [hid], by simp⟩
  | append_singleton done q ih =>
    obtain ⟨hdone, hq⟩ := names_append hv
    obtain ⟨topics, n, hn, heq, htopics⟩ := ih hdone (hfit.mono fun q' hq' => mem_append_left _ hq')
      fun q' hq' => hthere q' (mem_append_left _ hq')
    obtain ⟨p, hp, hname⟩ := hthere q (by simp)
    generalize hmid : ({ db with
        participants := db.participants.map (settled db.inputCounter done topics)
        topicCounter := n
        inputCounter := db.inputCounter + done.length } : Db) = mid at heq
    have hmidfit : mid.Fits (done ++ [q]) :=
      hfit.map (settled_name _ _ topics) (settled_handle _ _ _) (by rw [← hmid]) (by rw [← hmid])
    have hsettled : settled db.inputCounter done topics p = p := by
      unfold settled
      rw [hname, slot_none.2 hq]
    have hp' : p ∈ mid.participants := by
      rw [← hmid]
      exact mem_map.2 ⟨p, hp, hsettled⟩
    refine ⟨Function.update topics q.name (applyTopics domainId (p.topics, n) q.topics).1,
      (applyTopics domainId (p.topics, n) q.topics).2,
      Nat.le_trans hn (applyTopics_counter q.topics (p.topics, n)), ?_, ?_⟩
    · rw [foldl_append, heq, foldl_cons, foldl_nil, participantTopics_found hmidfit (by simp) hp' hname, ← hmid]
      simp only [List.map_map, length_append, length_singleton, Nat.add_assoc]
      congr 1
      refine map_congr_left fun p' hp' => ?_
      rw [comp_apply, settled_append hq, settled_name]
      by_cases h : p'.name = q.name
      · obtain rfl := hfit.single q (by simp) p' hp' p hp h hname
        rw [if_pos h, if_pos h, hsettled]
      · rw [if_neg h, if_neg h]
    intro q' hq' p' hp' hname'
    rcases mem_append.1 hq' with hq' | hq'
    · rw [update_of_ne (hq q' hq')]
      obtain ⟨m, hm, hle, h⟩ := htopics q' hq' p' hp' hname'
      exact ⟨m, hm, Nat.le_trans hle (applyTopics_counter q.topics (p.topics, n)), h⟩
    · obtain rfl := mem_singleton.1 hq'
      rw [hfit.single q' (by simp) p' hp' p hp hname' hname]
      exact ⟨n, hn, Nat.le_refl _, Function.update_self ..⟩

theorem addPolicyDomain_eq (db : Db) (domainId : Nat) : db.addPolicyDomain domainId = { db with
      domains := (db.addPolicyDomain domainId).domains
      numDomains := (db.addPolicyDomain domainId).numDomains } := by
  unfold addPolicyDomain
  split <;> rfl

theorem settled_marked (first first' : Nat) (v : List PolicyParticipant) (T : Name → List Rule) (p : Participant) :
    settled first v T (marked first' v p) = settled first v T p := by
  unfold settled
  rw [marked_name]
  unfold marked
  cases slot v p.name <;> rfl

theorem marked_topics (first : Nat) (v : List PolicyParticipant) (p : Participant) :
    (marked first v p).topics = p.topics := by
  unfold marked
  split <;> rfl

theorem exists_withFresh (db : Db) (hq : q ∈ v) : ∃ p ∈ db.merged v, p.name = q.name := by
  by_cases h : ∃ p ∈ db.participants, p.name = q.name
  · obtain ⟨p, hp, hname⟩ := h
    exact ⟨p, mem_append_left _ hp, hname⟩
  have hnew : q.name ∈ (db.freshFor v).map Participant.name := by
    rw [freshFor_names]
    refine mem_map_of_mem (mem_filter.2 ⟨hq, ?_⟩)
    simpa using h
  obtain ⟨p, hp, hname⟩ := mem_map.1 hnew
  exact ⟨p, mem_append_right _ hp, hname⟩

theorem passes_eq (domainId : Nat) (hv : (v.map PolicyParticipant.name).Nodup) (hfit : db.Fits v) :
    ∃ topics n, db.topicCounter ≤ n ∧ v.foldl (participantTopics domainId) (v.foldl participantOnly db) =
        { db with
          participants := (db.merged v).map (settled (db.inputCounter + v.length) v topics)
          numIds := db.numIds + (db.freshFor v).length
          topicCounter := n
          inputCounter := db.inputCounter + v.length + v.length } ∧
      ∀ q ∈ v, ∀ p ∈ db.merged v, p.name = q.name →
        ∃ m, db.topicCounter ≤ m ∧ (applyTopics domainId (p.topics, m) q.topics).2 ≤ n ∧
          topics q.name = (applyTopics domainId (p.topics, m) q.topics).1 := by
  rw [participantOnly_foldl hv hfit]
  generalize hmid : ({ db with
      participants := (db.merged v).map (marked db.inputCounter v)
      numIds := db.numIds + (db.freshFor v).length
      inputCounter := db.inputCounter + v.length } : Db) = mid
  have hmidfit : mid.Fits v :=
    (hfit.withFresh hv).map (marked_name _ _) (marked_handle _ _) (by rw [← hmid]) (by rw [← hmid])
  have hthere : ∀ q ∈ v, ∃ p ∈ mid.participants, p.name = q.name := by
    intro q hq
    obtain ⟨p, hp, hname⟩ := exists_withFresh db hq
    rw [← hmid]
    exact ⟨_, mem_map_of_mem hp, by rw [marked_name, hname]⟩
  obtain ⟨topics, n, hn, heq, htopics⟩ := participantTopics_foldl domainId hv hmidfit hthere
  subst hmid
  refine ⟨topics, n, hn, ?_, ?_⟩
  · rw [heq]
    simp only [List.map_map]
    congr 1
    exact map_congr_left fun p _ => settled_marked _ _ _ _ p
  · intro q hq p hp hname
    obtain ⟨m, hm, hle, h⟩ := htopics q hq _ (mem_map_of_mem hp) (by rw [marked_name, hname])
    rw [marked_topics] at hle h
    exact ⟨m, hm, hle, h⟩

def PolicyUpdate.set (u : PolicyUpdate) (topics : Name → List Rule) : Participant → Participant :=
  settled (1 + u.participants.length) u.participants topics

structure Passed (db : Db) (u : PolicyUpdate) (topics : Name → List Rule) (db' : Db) : Prop where
  participants : db'.participants = (db.participants ++ db.freshFor u.participants).map (u.set topics)
  inputCounter : db'.inputCounter = 1 + u.participants.length + u.participants.length
  numIds : db'.numIds = db.numIds + (db.freshFor u.participants).length
  numPermissions : db'.numPermissions = db.numPermissions
  topicCounter : db.topicCounter ≤ db'.topicCounter
  domains : db'.domains = (db.updateStart.addPolicyDomain u.domainId).domains
  numDomains : db'.numDomains = (db.updateStart.addPolicyDomain u.domainId).numDomains
  topics : ∀ q ∈ u.participants, ∀ p ∈ db.participants ++ db.freshFor u.participants, p.name = q.name →
    ∃ m, db.topicCounter ≤ m ∧ (applyTopics u.domainId (p.topics, m) q.topics).2 ≤ db'.topicCounter ∧
      topics q.name = (applyTopics u.domainId (p.topics, m) q.topics).1

theorem passed_policyPasses (hfit : db.Fits u.participants) : ∃ topics, Passed db u topics (db.policyPasses u) := by
  unfold policyPasses
  rw [addPolicyDomain_eq]
  have hfit' : Fits { db.updateStart with
      domains := (db.updateStart.addPolicyDomain u.domainId).domains
      numDomains := (db.updateStart.addPolicyDomain u.domainId).numDomains } u.participants :=
    ⟨hfit.handles, hfit.bounded, hfit.single⟩
  obtain ⟨topics, n, hn, heq, htopics⟩ := passes_eq u.domainId u.nodup hfit'
  rw [heq]
  exact ⟨topics, rfl, rfl, rfl, rfl, hn, rfl, rfl, htopics⟩

end

end Qeo.Access
