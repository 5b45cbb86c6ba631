import QeoCore.AccessTopics
/-!
# AccessHistory — what the database keeps of earlier policies

A policy update reuses what it finds.  The database depends on the last policy only when participants hidden by stale
ones come first anyway, and so do the patterns shared with the policy before, in the same order.
-/
namespace Qeo.Access

open List Option Function Prod Db

/-! ## The law -/

def Taken.outcome : Taken → Bool × Option Name × Mode
  | .participant r => (true, r.name, r.mode)
  | .domain r => (false, r.name, r.mode)

open Taken

/-- The same domains and participant rules in the same order, and every lookup finds the same. -/
def SameAccess (nmatch : Name → Name → Bool) (db db' : Db) : Prop :=
  db.participants.map Participant.name = db'.participants.map Participant.name ∧
    db.domains.map Domain.domainId = db'.domains.map Domain.domainId ∧
    ∀ (i j : Nat) (p p' : Participant) (d d' : Domain), db.participants[i]? = some p → db'.participants[i]? = some p' →
      db.domains[j]? = some d → db'.domains[j]? = some d' → ∀ topic,
        (lookupTopic nmatch d p topic).map outcome = (lookupTopic nmatch d' p' topic).map outcome

def PolicyUpdate.stands (u : PolicyUpdate) : List (Name × Nat) :=
  (u.participants.zipIdx (1 + u.participants.length)).map fun qk => (qk.1.name, qk.2)

open PolicyUpdate

/-- The policy `Q` can be set after `P`: it leaves the participants in its order, and the topics that a participant has
in both leave the patterns in its order. -/
structure PolicyUpdate.Follows (P Q : PolicyUpdate) : Prop where
  order : Q.orderAfter P.stands = Q.participants.map PolicyParticipant.name
  topics : ∀ p ∈ P.participants, ∀ q ∈ Q.participants, p.name = q.name →
    (carriedOver p.topics q.topics).filter PolicyTopic.wild = q.topics.filter PolicyTopic.wild

/-! ## Lookups -/

section

variable {nmatch : Name → Name → Bool} {m m' domainId : Nat} {ts : List PolicyTopic} {rules rules' : List Rule}
  {q : PolicyParticipant} {p : Participant}

def topicRule (domainId : Nat) (t : PolicyTopic) : Rule := ruleOf domainId false (0, t)

theorem find?_ruleOf {α : Type} {f : Rule → α}
    (hpred : ∀ it, pred (ruleOf domainId false it) = pred (topicRule domainId it.2))
    (hf : ∀ it, f (ruleOf domainId false it) = f (topicRule domainId it.2)) (its : List (Nat × PolicyTopic)) :
    ((its.map (ruleOf domainId false)).find? pred).map f =
      ((its.map snd).find? (pred ∘ topicRule domainId)).map (f ∘ topicRule domainId) := by
  have hcomp : pred ∘ ruleOf domainId false = (pred ∘ topicRule domainId) ∘ snd := funext hpred
  rw [find?_map, find?_map, Option.map_map, Option.map_map, hcomp]
  exact congrArg (Option.map · _) (funext hf)

theorem Holds.nil_iff (h : Holds m domainId ts rules) : ts = [] → rules = [.empty] := by
  rintro rfl
  obtain ⟨its, exact, -, rfl, hexact, horder⟩ := h
  have hnil : its = [] := by
    rw [perm_nil.1 hexact] at horder
    exact map_eq_nil_iff.1 horder
  rw [hnil]
  rfl

theorem Holds.find?_eq {α : Type} (h : Holds m domainId ts rules) (h' : Holds m' domainId ts rules')
    (pred : Rule → Bool) (f : Rule → α) (hpred : ∀ it, pred (ruleOf domainId false it) = pred (topicRule domainId it.2))
    (hf : ∀ it, f (ruleOf domainId false it) = f (topicRule domainId it.2))
    (hexact : ∀ t : PolicyTopic, t.wild = false → pred (topicRule domainId t) = true → t.name = topic) :
    (rules.find? pred).map f = (rules'.find? pred).map f := by
  by_cases hts : ts = []
  · rw [h.nil_iff hts, h'.nil_iff hts]
  have hne : ∀ {its : List (Nat × PolicyTopic)} {exact : List PolicyTopic},
      exact.Perm (ts.filter fun t => !t.wild) → its.map snd = exact ++ ts.filter PolicyTopic.wild →
      orEverything (its.map (ruleOf domainId false)) = its.map (ruleOf domainId false) := by
    intro its exact hp ho
    unfold orEverything
    rw [if_neg]
    intro hnil
    rw [map_eq_nil_iff.1 hnil] at ho
    have hperm := Holds.perm hp
    rw [← ho] at hperm
    exact hts (nil_perm.1 hperm)
  obtain ⟨its, exact, hl, rfl, hp, ho⟩ := h
  obtain ⟨its', exact', -, rfl, hp', ho'⟩ := h'
  rw [hne hp ho, hne hp' ho', find?_ruleOf hpred hf, find?_ruleOf hpred hf, ho, ho', find?_append, find?_append]
  -- without wildcards there is at most one for the topic
  have hsub : {t ∈ exact | (pred ∘ topicRule domainId) t = true}.Subsingleton := by
    rintro a ⟨ha, hpa⟩ b ⟨hb, hpb⟩
    have hwa : a.wild = false := by simpa using (mem_filter.1 (hp.subset ha)).2
    have hwb : b.wild = false := by simpa using (mem_filter.1 (hp.subset hb)).2
    have hnames := hl.names
    rw [ho] at hnames
    exact inj_on_of_nodup_map hnames (mem_append_left _ ha) (mem_append_left _ hb)
      ((hexact a hwa hpa).trans (hexact b hwb hpb).symm)
  rw [find?_eq_find?_of_perm (hp.trans hp'.symm) hsub]

theorem exact_of_covers (hw : t.wild = false)
    (h : (topicRule domainId t).covers nmatch topic = true) : t.name = topic := by
  have hstar : '*' ∉ t.name := by
    intro hmem
    simp [PolicyTopic.wild, hasWildcards, hmem] at hw
  simpa [Rule.covers, topicRule, ruleOf, hstar] using h

theorem lookupTopic_congr (hid : d.domainId = d'.domainId)
    (hd : d.topics = d'.topics) (hp : Holds m domainId ts p.topics) (hp' : Holds m' domainId ts p'.topics)
    (topic : Name) :
    (lookupTopic nmatch d p topic).map outcome = (lookupTopic nmatch d' p' topic).map outcome := by
  have hfind := hp.find?_eq hp' (fun r => r.appliesIn d.domainId && r.covers nmatch topic)
    (fun r => (r.name, r.mode, r.blacklist)) (fun _ => rfl) (fun _ => rfl) (fun t hw hc => exact_of_covers hw
      ((Bool.and_eq_true _ _).mp hc).2)
  unfold lookupTopic takenRule
  rw [← hid, ← hd]
  cases hr : p.topics.find? (fun r => r.appliesIn d.domainId && r.covers nmatch topic) with
  | none =>
    rw [hr] at hfind
    rw [map_eq_none_iff.1 hfind.symm]
  | some r =>
    rw [hr] at hfind
    obtain ⟨r', hr', heq⟩ := map_eq_some_iff.1 hfind.symm
    obtain ⟨hname, hmode, hblack⟩ : r'.name = r.name ∧ r'.mode = r.mode ∧ r'.blacklist = r.blacklist := by
      simpa using heq
    rw [hr']
    cases hb : r.blacklist with
    | true => simp [rule, hblack, hb]
    | false => simp [rule, hblack, hb, outcome, hname, hmode]

end

/-! ## The database after an update -/

structure IsRuleOf (m domainId : Nat) (qk : PolicyParticipant × Nat) (p : Participant) : Prop where
  name : p.name = qk.1.name
  inputNumber : p.inputNumber = qk.2
  refreshed : p.refreshed = false
  cloned : p.cloned = none
  topics : Holds m domainId qk.1.topics p.topics

structure Canonical (db : Db) (u : PolicyUpdate) : Prop where
  handles : (db.participants.map Participant.handle).Nodup
  bounded : ∀ p ∈ db.participants, p.handle ≤ db.numIds
  participants : List.Forall₂ (IsRuleOf db.topicCounter u.domainId)
    (u.participants.zipIdx (1 + u.participants.length)) db.participants
  domains : db.domains = [] ∨ ∃ h ≤ db.numDomains,
    db.domains = [⟨h, u.domainId, secret, false, [.empty], [.empty], false⟩]

def noPolicy : PolicyUpdate := ⟨0, [], by decide⟩

theorem canonical_empty : Canonical empty noPolicy := ⟨nodup_nil, by simp [empty], List.Forall₂.nil, .inl rfl⟩

theorem noPolicy_follows (u : PolicyUpdate) : noPolicy.Follows u := by
  have hhides : u.hides noPolicy.stands = fun _ => false := by
    funext name
    unfold hides
    cases slot u.participants name <;> rfl
  refine ⟨?_, by simp [noPolicy]⟩
  unfold orderAfter
  simp [hhides]

section

variable {nmatch : Name → Name → Bool} {db db' : Db} {u v : PolicyUpdate}

section
variable (h : Canonical db u)
include h

theorem Canonical.names : db.participants.map Participant.name = u.participants.map PolicyParticipant.name := by
  have hmap : (u.participants.zipIdx (1 + u.participants.length)).map (PolicyParticipant.name ∘ fst) =
      db.participants.map Participant.name :=
    forall₂_eq_eq_eq ▸ (forall₂_map_left_iff.2 (forall₂_map_right_iff.2
      (h.participants.imp fun _ _ hr => hr.name.symm)))
  rw [← hmap, ← List.map_map, zipIdx_map_fst]

theorem Canonical.sameAccess (h' : Canonical db' u) (hd : db.domains ≠ []) (hd' : db'.domains ≠ []) :
    SameAccess nmatch db db' := by
  obtain ⟨n, -, hds⟩ := h.domains.resolve_left hd
  obtain ⟨n', -, hds'⟩ := h'.domains.resolve_left hd'
  refine ⟨h.names.trans h'.names.symm, by rw [hds, hds']; rfl, ?_⟩
  intro i j p p' d d' hp hp' hdj hdj' topic
  have hd0 : d.domainId = u.domainId ∧ d.topics = [.empty] := by
    rw [hds] at hdj
    rw [mem_singleton.1 (mem_of_getElem? hdj)]
    exact ⟨rfl, rfl⟩
  have hd1 : d'.domainId = u.domainId ∧ d'.topics = [.empty] := by
    rw [hds'] at hdj'
    rw [mem_singleton.1 (mem_of_getElem? hdj')]
    exact ⟨rfl, rfl⟩
  have hi : i < (u.participants.zipIdx (1 + u.participants.length)).length := by
    rw [h.participants.length_eq]
    exact (List.getElem?_eq_some_iff.1 hp).1
  obtain ⟨hlt, rfl⟩ := List.getElem?_eq_some_iff.1 hp
  obtain ⟨hlt', rfl⟩ := List.getElem?_eq_some_iff.1 hp'
  have hr := h.participants.get hi hlt
  have hr' := h'.participants.get hi hlt'
  exact lookupTopic_congr (hd0.1.trans hd1.1.symm) (hd0.2.trans hd1.2.symm) hr.topics hr'.topics topic

theorem Canonical.fits : db.Fits v.participants := by
  refine ⟨h.handles, h.bounded, fun q _ p hp p' hp' hname hname' => ?_⟩
  have hnodup : (db.participants.map Participant.name).Nodup := by
    rw [h.names]
    exact u.nodup
  exact inj_on_of_nodup_map hnodup hp hp' (hname.trans hname'.symm)

theorem Canonical.isRuleOf (hp : db.participants[i]? = some p) :
    ∃ q, u.participants[i]? = some q ∧
      IsRuleOf db.topicCounter u.domainId (q, 1 + u.participants.length + i) p := by
  obtain ⟨hlt, rfl⟩ := List.getElem?_eq_some_iff.1 hp
  have hi : i < (u.participants.zipIdx (1 + u.participants.length)).length := by
    rw [h.participants.length_eq]
    exact hlt
  have hr := h.participants.get hi hlt
  have hlt' : i < u.participants.length := by rwa [length_zipIdx] at hi
  refine ⟨u.participants[i], getElem?_eq_getElem hlt', ?_⟩
  simpa using hr

theorem Canonical.isRuleOf_mem (hp : p ∈ db.participants) :
    ∃ q ∈ u.participants, ∃ k, IsRuleOf db.topicCounter u.domainId (q, k) p := by
  obtain ⟨i, hi⟩ := mem_iff_getElem?.1 hp
  obtain ⟨q, hq, hr⟩ := h.isRuleOf hi
  exact ⟨q, mem_of_getElem? hq, _, hr⟩

theorem Canonical.stands : db.stands = u.stands := by
  symm
  exact forall₂_eq_eq_eq ▸ (forall₂_map_left_iff.2 (forall₂_map_right_iff.2
    (h.participants.imp fun _ _ hr => by rw [hr.name, hr.inputNumber])))

end

theorem cleanupParticipants_of_rules (n : Nat) : ∀ (ps done : List Participant), (∀ p ∈ ps, p.cloned = none) →
    cleanupParticipants done n ps = some (done ++ (ps.filter (·.refreshed)).map cleanupStaleParticipant, n)
  | [], done, _ => by simp [cleanupParticipants]
  | p :: ps, done, h => by
    have hps := (forall_mem_cons.1 h).2
    unfold cleanupParticipants
    by_cases hr : p.refreshed = true
    · rw [if_pos hr, cleanupParticipants_of_rules n ps _ hps, filter_cons_of_pos hr, append_assoc]
      rfl
    · rw [if_neg hr, h p mem_cons_self, filter_cons_of_neg hr]
      exact cleanupParticipants_of_rules n ps done hps

theorem rematch_of_rule (h : p.cloned = none) : rematch nmatch ps p = p := by
  unfold rematch
  rw [h]

def PolicyUpdate.leaves (u : PolicyUpdate) (topics : Name → List Rule) (p : Participant) : Participant :=
  optimizeParticipant (cleanupStaleParticipant (u.set topics p))

theorem leaves_of_slot (topics : Name → List Rule)
    (hcloned : p.cloned = none) (h : slot u.participants p.name = some (q, i)) :
    (u.leaves topics p).name = p.name ∧ (u.leaves topics p).handle = p.handle ∧
      (u.leaves topics p).inputNumber = 1 + u.participants.length + i ∧ (u.leaves topics p).refreshed = false ∧
      (u.leaves topics p).cloned = none ∧
      (u.leaves topics p).topics = optimizeRules [.empty] (cleanupRules (topics p.name)) := by
  unfold leaves
  rw [set_of_slot h]
  simp [optimizeParticipant, cleanupStaleParticipant, mark, hcloned]

/-- **An update of a database without clones**: the participants of the policy, in its order. -/
theorem updateDone_of_passed (nmatch : Name → Name → Bool) (hfit : db.Fits u.participants)
    (hstale : ∀ p ∈ db.participants, p.refreshed = false) (hrules : ∀ p ∈ db.participants, p.cloned = none)
    (horder : u.orderAfter db.stands = u.participants.map PolicyParticipant.name) (hpassed : Passed db u topics db') :
    db'.updateDone nmatch = some { db' with
      participants := u.participants.map fun q => u.leaves topics (db.entryFor u.participants q)
      domains := (cleanupDomains db'.domains).map optimizeDomain } := by
  have hcloned : ∀ p ∈ db.merged u.participants, p.cloned = none := by
    intro p hp
    rcases mem_append.1 hp with hold | hnew
    · exact hrules p hold
    · obtain ⟨q, -, _, rfl, -⟩ := mem_freshFor hnew
      rfl
  have hset : ∀ p ∈ db.merged u.participants, (u.set topics p).cloned = none := by
    intro p hp
    rw [← hcloned p hp]
    unfold PolicyUpdate.set settled
    split <;> rfl
  have hfilter := filter_reorderParticipants topics hfit hstale horder
  rw [← hpassed.participants, ← hpassed.inputCounter] at hfilter
  have hclean := cleanupParticipants_of_rules db'.numPermissions
    (reorderParticipants db'.inputCounter db'.participants) [] (by
      intro p hp
      rw [mem_reorderParticipants, hpassed.participants] at hp
      obtain ⟨p0, hp0, rfl⟩ := mem_map.1 hp
      exact hset p0 hp0)
  unfold updateDone
  rw [hclean, map_some, nil_append, hfilter]
  dsimp only
  congr 2
  rw [List.map_map, List.map_map, List.map_map]
  refine map_congr_left fun q hq => ?_
  dsimp only [comp_apply]
  have hrule : (cleanupStaleParticipant (u.set topics (db.entryFor u.participants q))).cloned = none :=
    hset _ (entryFor_mem db hq)
  rw [rematch_of_rule hrule]
  rfl

theorem addPolicyDomain_left {oldId : Nat} (h : db.domains = [] ∨ ∃ h ≤ db.numDomains,
      db.domains = [⟨h, oldId, secret, false, [.empty], [.empty], false⟩]) (domainId : Nat) :
    ∃ h ≤ (db.addPolicyDomain domainId).numDomains,
      (cleanupDomains (db.addPolicyDomain domainId).domains).map optimizeDomain =
        [⟨h, domainId, secret, false, [.empty], [.empty], false⟩] := by
  rcases h with hnil | ⟨h, hle, hone⟩
  · refine ⟨db.numDomains + 1, ?_⟩
    simp [addPolicyDomain, domainHandle, hnil, addDomain, setDomainAccess, modifyDomain, cleanupDomains,
      cleanupStaleDomain, optimizeDomain]
    decide
  by_cases hid : oldId = domainId
  · refine ⟨h, ?_⟩
    simp [addPolicyDomain, domainHandle, hone, hid, setDomainAccess, modifyDomain, cleanupDomains, cleanupStaleDomain,
      optimizeDomain, hle]
    decide
  · have hne : h ≠ db.numDomains + 1 := by omega
    refine ⟨db.numDomains + 1, ?_⟩
    simp [addPolicyDomain, domainHandle, hone, hid, hne, addDomain, setDomainAccess, modifyDomain, cleanupDomains,
      cleanupStaleDomain, optimizeDomain]
    decide

theorem Canonical.entryFor_cloned (h : Canonical db u) (hq : q ∈ v.participants) :
    (db.entryFor v.participants q).cloned = none := by
  rcases mem_append.1 (entryFor_mem db hq) with hold | hnew
  · obtain ⟨_, _, _, hr⟩ := h.isRuleOf_mem hold
    exact hr.cloned
  · obtain ⟨_, _, _, hblank, _⟩ := mem_freshFor hnew
    rw [hblank]
    rfl

theorem Canonical.entryFor_topics (h : Canonical db u) (hfollows : u.Follows v)
    (hq : q ∈ v.participants) : ∃ ts oldId, Holds db.topicCounter oldId ts (db.entryFor v.participants q).topics ∧
      (carriedOver ts q.topics).filter PolicyTopic.wild = q.topics.filter PolicyTopic.wild := by
  have hname := entryFor_name db hq
  rcases mem_append.1 (entryFor_mem db hq) with hold | hnew
  · obtain ⟨q', hq', _, hr⟩ := h.isRuleOf_mem hold
    exact ⟨q'.topics, u.domainId, hr.topics, hfollows.topics q' hq' q hq (hr.name.symm.trans hname)⟩
  obtain ⟨_, _, _, hblank, _⟩ := mem_freshFor hnew
  rw [hblank]
  refine ⟨[], u.domainId, Holds.nil _ _, ?_⟩
  simp [carriedOver]

theorem Canonical.update (nmatch : Name → Name → Bool) (h : Canonical db u) (hfollows : u.Follows v) :
    ∃ db', db.policyUpdate nmatch v = some db' ∧ Canonical db' v ∧ db'.domains ≠ [] := by
  have hfit : db.Fits v.participants := h.fits
  have hstale : ∀ p ∈ db.participants, p.refreshed = false := fun p hp => by
    obtain ⟨_, _, _, hr⟩ := h.isRuleOf_mem hp
    exact hr.refreshed
  have hrules : ∀ p ∈ db.participants, p.cloned = none := fun p hp => by
    obtain ⟨_, _, _, hr⟩ := h.isRuleOf_mem hp
    exact hr.cloned
  obtain ⟨topics, hpassed⟩ := passed_policyPasses hfit
  have hdone := updateDone_of_passed nmatch hfit hstale hrules (by rw [h.stands, hfollows.order]) hpassed
  obtain ⟨d, hd, hleft⟩ := @addPolicyDomain_left db.updateStart u.domainId h.domains v.domainId
  rw [← hpassed.numDomains] at hd
  rw [← hpassed.domains] at hleft
  have hfresh := hfit.withFresh v.nodup
  have hleaves : ∀ q i, v.participants[i]? = some q → _ := fun q i hi =>
    leaves_of_slot topics (h.entryFor_cloned (mem_of_getElem? hi)) (slot_entryFor db hi)
  have hhandle : ∀ q ∈ v.participants,
      (v.leaves topics (db.entryFor v.participants q)).handle = (db.entryFor v.participants q).handle := by
    intro q hq
    obtain ⟨i, hi⟩ := mem_iff_getElem?.1 hq
    exact (hleaves q i hi).2.1
  refine ⟨_, hdone, ⟨?_, ?_, ?_, .inr ⟨d, hd, hleft⟩⟩, by rw [hleft]; simp⟩
  · rw [List.map_map]
    refine List.Nodup.map_on (fun a ha b hb hab => ?_) v.nodup.of_map
    rw [comp_apply, comp_apply, hhandle a ha, hhandle b hb] at hab
    have hentry := eq_of_handle hfresh.handles (entryFor_mem db ha) (entryFor_mem db hb) hab
    refine inj_on_of_nodup_map v.nodup ha hb ?_
    rw [← entryFor_name db ha, hentry, entryFor_name db hb]
  · intro p hp
    obtain ⟨q, hq, rfl⟩ := mem_map.1 hp
    rw [hhandle q hq]
    exact Nat.le_trans (hfresh.bounded _ (entryFor_mem db hq)) (Nat.le_of_eq hpassed.numIds.symm)
  have hzip : ∀ f : PolicyParticipant → Participant,
      v.participants.map f = (v.participants.zipIdx (1 + v.participants.length)).map (f ∘ fst) := by
    intro f
    rw [← List.map_map, zipIdx_map_fst]
  rw [hzip, forall₂_map_right_iff, forall₂_same]
  rintro ⟨q, k⟩ hqk
  rw [mem_zipIdx_iff_le_and_getElem?_sub] at hqk
  obtain ⟨i, rfl⟩ := Nat.exists_eq_add_of_le hqk.1
  have hi : v.participants[i]? = some q := by simpa using hqk.2
  have hq := mem_of_getElem? hi
  have hname := entryFor_name db hq
  obtain ⟨hlname, -, hlnum, hlref, hlcloned, hltopics⟩ := hleaves q i hi
  refine ⟨hlname.trans hname, hlnum, hlref, hlcloned, ?_⟩
  obtain ⟨ts, oldId, hholds, hwild⟩ := h.entryFor_topics hfollows hq
  obtain ⟨m, hm, hle, htopics⟩ := hpassed.topics q hq _ (entryFor_mem db hq) hname
  dsimp only [comp_apply]
  rw [hltopics, hname, htopics]
  exact (hholds.update hm q.nodup hwild).mono hle

theorem Canonical.updates (nmatch : Name → Name → Bool) : ∀ {us : List PolicyUpdate} {db : Db} {u : PolicyUpdate},
    Canonical db u → ∀ v, (u :: us ++ [v]).IsChain Follows →
      ∃ db', (us ++ [v]).foldlM (policyUpdate nmatch) db = some db' ∧ Canonical db' v ∧ db'.domains ≠ []
  | [], db, u, h, v, hchain => by
    obtain ⟨db', hdb', hcanon, hd⟩ := h.update nmatch (isChain_cons_cons.1 hchain).1
    exact ⟨db', by simp [hdb'], hcanon, hd⟩
  | w :: us, db, u, h, v, hchain => by
    obtain ⟨hfollows, hchain⟩ := isChain_cons_cons.1 hchain
    obtain ⟨db1, hdb1, hcanon1, -⟩ := h.update nmatch hfollows
    obtain ⟨db', hdb', hcanon, hd⟩ := hcanon1.updates nmatch v hchain
    refine ⟨db', ?_, hcanon, hd⟩
    rw [cons_append, foldlM_cons, hdb1]
    exact hdb'

end

/-- **The database depends on the last policy only**, if each policy follows the one before. -/
theorem sameAccess_of_follows {nmatch : Name → Name → Bool} {us : List PolicyUpdate} {u : PolicyUpdate}
    (h : (us ++ [u]).IsChain PolicyUpdate.Follows) :
    ∃ db db', (us ++ [u]).foldlM (Db.policyUpdate nmatch) Db.empty = some db ∧
      Db.empty.policyUpdate nmatch u = some db' ∧ SameAccess nmatch db db' := by
  have hchain : (noPolicy :: us ++ [u]).IsChain PolicyUpdate.Follows := by
    cases us with
    | nil | cons w us => exact isChain_cons_cons.2 ⟨noPolicy_follows _, h⟩
  obtain ⟨db, hdb, hcanon, hd⟩ := canonical_empty.updates nmatch u hchain
  obtain ⟨db', hdb', hcanon', hd'⟩ := canonical_empty.update nmatch (noPolicy_follows u)
  exact ⟨db, db', hdb, hdb', hcanon.sameAccess hcanon' hd hd'⟩

def readWrite : Mode := ⟨false, false, true, true⟩

def readOnly : Mode := ⟨false, false, false, true⟩

def namesOnly (names : List Name) (h : names.Nodup) : PolicyUpdate :=
  ⟨0, names.map fun name => ⟨name, false, [], nodup_nil⟩, by simpa [comp_def] using h⟩

def topicsOnly (topics : List PolicyTopic) (h : (topics.map PolicyTopic.name).Nodup) : PolicyUpdate :=
  ⟨0, [⟨"*<user:1>*".toList, false, topics, h⟩], by simp⟩

def oldTopics : PolicyUpdate := topicsOnly [⟨"org.*".toList, readWrite, false⟩, ⟨"com.a".toList, readOnly, false⟩]
    (by decide)

def newTopic : PolicyUpdate := topicsOnly [⟨"com.b".toList, readOnly, false⟩, ⟨"org.*".toList, readWrite, false⟩,
  ⟨"org.qeo.*".toList, readOnly, false⟩] (by decide)

theorem sameAccess_shared : ∃ db db', [oldTopics, newTopic].foldlM (Db.policyUpdate glob) Db.empty = some db ∧
    Db.empty.policyUpdate glob newTopic = some db' ∧ SameAccess glob db db' :=
  @sameAccess_of_follows glob [oldTopics] newTopic
    (isChain_cons_cons.2 ⟨⟨by decide, by decide⟩, List.IsChain.singleton _⟩)

def threeNames : PolicyUpdate := namesOnly ["*<user:1>*".toList, "*<user:2>*".toList, "*<user:3>*".toList] (by decide)

def secondReplaced : PolicyUpdate :=
  namesOnly ["*<user:1>*".toList, "*<user:4>*".toList, "*<user:3>*".toList] (by decide)

def patternInFront : PolicyUpdate := topicsOnly [⟨"org.qeo.*".toList, readOnly, false⟩,
  ⟨"org.*".toList, readWrite, false⟩] (by decide)

/-- The second participant comes first, because the number it gets is that of the one which it replaces; and the pattern
that was there is found first. -/
theorem not_sameAccess :
    (∃ db db', [threeNames, secondReplaced].foldlM (Db.policyUpdate glob) Db.empty = some db ∧
      Db.empty.policyUpdate glob secondReplaced = some db' ∧
      db.participants.map Participant.name = ["*<user:4>*".toList, "*<user:1>*".toList, "*<user:3>*".toList] ∧
      ¬ SameAccess glob db db') ∧
    ∃ db db', [oldTopics, patternInFront].foldlM (Db.policyUpdate glob) Db.empty = some db ∧
      Db.empty.policyUpdate glob patternInFront = some db' ∧
      db.participants.map Participant.name = db'.participants.map Participant.name ∧ ¬ SameAccess glob db db' := by
  refine ⟨⟨_, _, eq_some_of_isSome (by decide), eq_some_of_isSome (by decide), by decide, fun h => ?_⟩,
    ⟨_, _, eq_some_of_isSome (by decide), eq_some_of_isSome (by decide), by decide, fun h => ?_⟩⟩
  · exact absurd h.1 (by decide)
  · exact absurd (h.2.2 0 0 _ _ _ _ rfl rfl rfl rfl "org.qeo.x".toList) (by decide)

end Qeo.Access
