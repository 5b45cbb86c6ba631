import QeoCore.Access
import QeoCore.Trace
/-!
# AccessLookup — which rule decides

A lookup takes the first rule that covers the topic.  At the end of an update the rules without wildcards are moved to
the head; a rule for everything has no name, hence no wildcards, and is moved as well.
-/
namespace Qeo.Access

open List Option Nat Domain FirstMatch Trace

/-! ## Lookups -/

section

variable (nmatch : Name → Name → Bool)

def Rule.appliesIn (domainId : Nat) (r : Rule) : Bool := r.id == anyDomain || r.id == domainId

def Rule.covers (topic : Name) (r : Rule) : Bool :=
  match r.name with
  | none => true
  | some name => if '*' ∈ name then nmatch name topic else name == topic

inductive Taken where
  | participant (r : Rule)
  | domain (r : Rule)
  deriving DecidableEq

def Taken.rule : Taken → Rule
  | participant r => r
  | domain r => r

def takenRule (d : Domain) (p : Participant) (topic : Name) : Option Taken :=
  match p.topics.find? fun r => r.appliesIn d.domainId && r.covers nmatch topic with
  | some r => some (.participant r)
  | none => (d.topics.find? (·.covers nmatch topic)).map .domain

def lookupTopic (d : Domain) (p : Participant) (topic : Name) : Option Taken :=
  match takenRule nmatch d p topic with
  | some taken => if taken.rule.blacklist then none else some taken
  | none => none

/-! ## What the law says -/

def Rule.IsExactFor (topic : Name) (r : Rule) : Prop := r.name = some topic ∧ hasWildcards r.name = false

def Rule.IsPatternFor (topic : Name) (r : Rule) : Prop :=
  r.name = none ∨ (hasWildcards r.name = true ∧ ∃ name ∈ r.name, nmatch name topic = true)

/-- Among the rules that `ok` lets through: the one for exactly the topic, or else the pattern for it that was added
first. -/
def Chosen (ok : Rule → Bool) (topic : Name) (rules : List Rule) (r : Rule) : Prop :=
  r ∈ rules ∧ ok r = true ∧ (r.IsExactFor topic ∨
    (r.IsPatternFor nmatch topic ∧ (∀ s ∈ rules, ok s = true → ¬ s.IsExactFor topic) ∧
      ∀ s ∈ rules, ok s = true → s.IsPatternFor nmatch topic → r.index ≤ s.index))

def ChosenFor (d : Domain) (p : Participant) (topic : Name) : Taken → Prop
  | .participant r => Chosen nmatch (Rule.appliesIn d.domainId) topic p.topics r
  | .domain r => (∀ s, ¬ Chosen nmatch (Rule.appliesIn d.domainId) topic p.topics s) ∧
      Chosen nmatch (fun _ => true) topic d.topics r

def MostSpecificDecides (d : Domain) (p : Participant) (topic : Name) : Prop :=
  (∀ taken, takenRule nmatch d p topic = some taken ↔ ChosenFor nmatch d p topic taken) ∧
    ∀ taken, lookupTopic nmatch d p topic = some taken ↔
      ChosenFor nmatch d p topic taken ∧ taken.rule.blacklist = false

def Db.SpecificFirst (db : Db) (domainId : Nat) : Prop :=
  db.lookupDomain domainId true =
    (db.domains.find? (·.domainId == domainId)).or (db.domains.find? (·.domainId == anyDomain))

/-! ## When it holds -/

def keptRules (rules : List Rule) : List Rule :=
  if cleanupRules rules = [] then [.empty] else cleanupRules rules

def ComesBefore (rules : List Rule) (r s : Rule) : Prop :=
  if hasWildcards r.name then hasWildcards s.name = true ∧ Precedes rules r s
  else hasWildcards s.name = true ∨ Precedes rules s r

def Undisturbed (ok : Rule → Bool) (topic : Name) (rules : List Rule) : Prop :=
  (∀ r, Chosen nmatch ok topic rules r → r.covers nmatch topic = true ∧
    ∀ s ∈ rules, ok s = true → s.covers nmatch topic = true → s ≠ r → ComesBefore rules r s) ∧
  ((∀ r, ¬ Chosen nmatch ok topic rules r) → ∀ s ∈ rules, ok s = true → s.covers nmatch topic = false)

def LookupUndisturbed (d : Domain) (p : Participant) (topic : Name) : Prop :=
  Undisturbed nmatch (Rule.appliesIn d.domainId) topic (keptRules p.topics) ∧
    ((∀ r, ¬ Chosen nmatch (Rule.appliesIn d.domainId) topic (keptRules p.topics) r) →
      Undisturbed nmatch (fun _ => true) topic (keptRules d.topics))

end

def Db.DefaultBehind (db : Db) (domainId : Nat) : Prop :=
  (∃ d ∈ db.domains, d.refreshed = true ∧ d.domainId = domainId) →
    ∀ d ∈ (db.domains.filter (·.refreshed)).takeWhile (·.domainId != domainId), d.domainId ≠ anyDomain

/-! ## The order of the rules -/

section

variable {nmatch : Name → Name → Bool} {ok : Rule → Bool} {topic : Name} {rules : List Rule}

theorem moveExact_eq (moved passed rules : List Rule) :
    moveExact moved passed rules = (rules.filter (!hasWildcards ·.name)).reverse ++ moved ++
      (passed ++ rules.filter (hasWildcards ·.name)) := by
  induction rules generalizing moved passed with
  | nil => simp [moveExact]
  | cons r rest ih =>
    unfold moveExact
    by_cases h : hasWildcards r.name = true
    · rw [ih]
      simp [h]
    · rw [if_neg h, ih]
      simp [h]

theorem moveExact_perm (rules : List Rule) : (moveExact [] [] rules).Perm rules := by
  rw [moveExact_eq, append_nil]
  have hperm := filter_append_perm (fun r : Rule => !hasWildcards r.name) rules
  simp only [Bool.not_not] at hperm
  exact ((reverse_perm _).append_right _).trans hperm

theorem optimizeRules_eq (rules : List Rule) :
    optimizeRules [.empty] (cleanupRules rules) = moveExact [] [] (keptRules rules) := by
  unfold optimizeRules keptRules
  by_cases h : cleanupRules rules = []
  · rw [if_pos h, if_pos h]
    rfl
  · rw [if_neg h, if_neg h]

theorem precedes_moveExact (hr : r ∈ rules) (hs : s ∈ rules) :
    Precedes (moveExact [] [] rules) r s ↔ ComesBefore rules r s := by
  have hnot (t : Rule) : (!hasWildcards t.name) = true ↔ ¬ hasWildcards t.name = true := by simp
  rw [moveExact_eq, append_nil, nil_append, precedes_append, precedes_reverse, precedes_filter,
    precedes_filter, mem_reverse, mem_filter]
  simp only [hnot]
  unfold ComesBefore
  by_cases hwr : hasWildcards r.name = true
  · rw [if_pos hwr]
    simp only [hwr, not_true_eq_false, and_false, false_and, false_or, true_and]
    tauto
  · by_cases hws : hasWildcards s.name = true
    · simp [hwr, hws, hr, hs]
    · simp [hwr, hws]

theorem chosen_perm (h : rules'.Perm rules) (r : Rule) :
    Chosen nmatch ok topic rules' r ↔ Chosen nmatch ok topic rules r := by
  unfold Chosen
  simp only [h.mem_iff]

theorem takes_iff (hnodup : rules.Nodup) :
    (∀ r, (moveExact [] [] rules).find? (fun r => ok r && r.covers nmatch topic) = some r ↔
      Chosen nmatch ok topic rules r) ↔ Undisturbed nmatch ok topic rules := by
  have hmoved : (moveExact [] [] rules).Nodup := (moveExact_perm rules).nodup_iff.2 hnodup
  have hfind (r : Rule) : (moveExact [] [] rules).find? (fun r => ok r && r.covers nmatch topic) = some r ↔
      r ∈ rules ∧ ok r = true ∧ r.covers nmatch topic = true ∧
        ∀ s ∈ rules, ok s = true → s.covers nmatch topic = true → s ≠ r → ComesBefore rules r s := by
    rw [find?_eq_some_iff hmoved]
    simp only [(moveExact_perm rules).mem_iff, Bool.and_eq_true, and_imp, and_assoc]
    refine and_congr_right fun hr => and_congr_right fun _ => and_congr_right fun _ => forall₂_congr fun s hs => ?_
    rw [precedes_moveExact hr hs]
  constructor
  · intro h
    refine ⟨fun r hr => ((hfind r).1 ((h r).2 hr)).2.2, fun hnone s hs hok => ?_⟩
    by_contra hcov
    have hsome : ((moveExact [] [] rules).find? fun r => ok r && r.covers nmatch topic).isSome :=
      find?_isSome.2 ⟨s, (moveExact_perm rules).mem_iff.2 hs, by simp [hok, hcov]⟩
    obtain ⟨r, hr⟩ := isSome_iff_exists.1 hsome
    exact hnone r ((h r).1 hr)
  rintro ⟨hchosen, hnone⟩ r
  constructor
  · intro hr
    obtain ⟨hmem, hok, hcov, hfirst⟩ := (hfind r).1 hr
    by_cases hex : ∃ c, Chosen nmatch ok topic rules c
    · obtain ⟨c, hc⟩ := hex
      obtain ⟨hccov, hcfirst⟩ := hchosen c hc
      by_cases hne : c = r
      · exact hne ▸ hc
      -- each of them would stand before the other
      have hcr := (precedes_moveExact hc.1 hmem).2 (hcfirst r hmem hok hcov (Ne.symm hne))
      have hrc := (precedes_moveExact hmem hc.1).2 (hfirst c hc.1 hc.2.1 hccov hne)
      exact absurd hrc (hcr.asymm hmoved)
    · have := hnone (fun c hc => hex ⟨c, hc⟩) r hmem hok
      rw [hcov] at this
      cases this
  · intro hr
    obtain ⟨hcov, hfirst⟩ := hchosen r hr
    exact (hfind r).2 ⟨hr.1, hr.2.1, hcov, hfirst⟩

end

/-! ## The calls that build a database -/

inductive Call where
  | addDomain
  | setDomainAccess (handle domainId access : Nat) (exclusive : Bool)
  | removeDomain (handle : Nat)
  | addParticipant
  | setParticipantAccess (handle : Nat) (name : Name) (access : Nat) (blacklist : Bool)
  | removeParticipant (handle : Nat)
  | addRule (owner : Owner) (what : What)
  | setRuleAccess (owner : Owner) (what : What) (index : Nat) (name : Option Name) (mode : Mode) (id : Nat)
      (blacklist : Bool)
  | removeRule (owner : Owner) (what : What) (index : Nat)
  | updateStart
  | updateDone

def Db.call (nmatch : Name → Name → Bool) (db : Db) : Call → Option Db
  | .addDomain => some db.addDomain.2
  | .setDomainAccess handle domainId access exclusive => some (db.setDomainAccess handle domainId access exclusive)
  | .removeDomain handle => some (db.removeDomain handle)
  | .addParticipant => some db.addParticipant.2
  | .setParticipantAccess handle name access blacklist => some (db.setParticipantAccess handle name access blacklist)
  | .removeParticipant handle => some (db.removeParticipant handle)
  | .addRule owner what => some (db.addRuleTo owner what).2
  | .setRuleAccess owner what index name mode id blacklist =>
    some (db.setRuleAccess owner what index name mode id blacklist)
  | .removeRule owner what index => some (db.removeRuleFrom owner what index)
  | .updateStart => some db.updateStart
  | .updateDone => db.updateDone nmatch

/-! ## Every rule has an index of its own -/

def IndexedRules (n : Nat) (rules : List Rule) : Prop :=
  (rules.map Rule.index).Nodup ∧ ∀ r ∈ rules, r.index ≤ n

namespace IndexedRules

variable {n n' : Nat} {rules rules' : List Rule}

theorem mono (h : IndexedRules n rules) (hle : n ≤ n') : IndexedRules n' rules :=
  ⟨h.1, fun r hr => Nat.le_trans (h.2 r hr) hle⟩

theorem nodup (h : IndexedRules n rules) : rules.Nodup := h.1.of_map

theorem empty (n : Nat) : IndexedRules n [.empty] :=
  ⟨nodup_singleton _, fun r hr => by rw [mem_singleton.1 hr]; exact zero_le n⟩

section
variable (h : IndexedRules n rules)
include h

theorem of_sublist (hsub : (rules'.map Rule.index).Sublist (rules.map Rule.index)) : IndexedRules n rules' := by
  refine ⟨hsub.nodup h.1, fun r hr => ?_⟩
  obtain ⟨s, hs, heq⟩ := mem_map.1 (hsub.subset (mem_map_of_mem hr))
  rw [← heq]
  exact h.2 s hs

theorem eraseP (p : Rule → Bool) : IndexedRules n (rules.eraseP p) := h.of_sublist (eraseP_sublist.map _)

theorem add : IndexedRules (n + 1) (addRule rules (n + 1)) := by
  have hkept : IndexedRules n (if rules.head?.any (·.index == 0) then rules.eraseP (·.index == 0) else rules) := by
    split
    · exact h.eraseP _
    · exact h
  unfold addRule
  refine ⟨?_, fun r hr => ?_⟩
  · rw [map_append, nodup_append]
    refine ⟨hkept.1, nodup_singleton _, fun i hi j hj => ?_⟩
    obtain ⟨r, hr, rfl⟩ := mem_map.1 hi
    rw [mem_singleton.1 hj]
    exact Nat.ne_of_lt (lt_succ_of_le (hkept.2 r hr))
  · rcases mem_append.1 hr with hr | hr
    · exact le_succ_of_le (hkept.2 r hr)
    · obtain rfl := mem_singleton.1 hr
      exact Nat.le_refl _

theorem set (index : Nat) (name : Option Name) (mode : Mode) (id : Nat) (blacklist : Bool) :
    IndexedRules n (setRule rules index name mode id blacklist) := by
  have hsame : (setRule rules index name mode id blacklist).map Rule.index = rules.map Rule.index := by
    unfold setRule
    rw [List.map_map]
    refine map_congr_left fun r _ => ?_
    by_cases hr : r.index = index <;> simp [hr]
  refine h.of_sublist ?_
  rw [hsame]

theorem cleanup : IndexedRules n (cleanupRules rules) := by
  refine h.of_sublist ?_
  clear h
  induction rules with
  | nil => exact List.Sublist.slnil
  | cons r rest ih =>
    unfold cleanupRules at ih ⊢
    rw [filterMap_cons]
    split
    · exact ih.cons _
    rename_i q hq
    have hindex : q.index = r.index := by
      split at hq
      · cases hq
        rfl
      split at hq
      · cases hq
        rfl
      · cases hq
    rw [map_cons, hindex]
    exact ih.cons_cons _

theorem kept : IndexedRules n (keptRules rules) := by
  unfold keptRules
  split
  · exact empty n
  · exact h.cleanup

theorem moved : IndexedRules n (moveExact [] [] rules) :=
  ⟨((moveExact_perm rules).map _).nodup_iff.2 h.1, fun r hr => h.2 r ((moveExact_perm rules).mem_iff.1 hr)⟩

theorem optimized (hf : IndexedRules n fallback) : IndexedRules n (optimizeRules fallback rules) := by
  unfold optimizeRules
  split
  · exact hf
  · exact h.moved

end

end IndexedRules

/-! ## What an update leaves -/

section

variable {nmatch : Name → Name → Bool} {db db' : Db}

theorem mem_reorderParticipants : p ∈ reorderParticipants n ps ↔ p ∈ ps := by
  unfold reorderParticipants
  generalize List.range' 1 (n - 1) = numbers
  induction numbers generalizing ps with
  | nil => rfl
  | cons number numbers ih => rw [foldl_cons, ih, FirstMatch.mem_toTail]

def LeftOf (p q : Participant) : Prop :=
  (p.refreshed = true ∧ q = cleanupStaleParticipant p) ∨
    (p.refreshed = false ∧ p.cloned.isSome ∧ ∃ n, q = { p with updatedPermHandle := n })

theorem mem_cleanupParticipants : ∀ {ps done left : List Participant} {n n' : Nat},
    cleanupParticipants done n ps = some (left, n') → ∀ q ∈ left, q ∈ done ∨ ∃ p ∈ ps, LeftOf p q
  | [], done, left, n, n', h, q, hq => by
    cases h
    exact .inl hq
  | p :: rest, done, left, n, n', h, q, hq => by
    -- a participant is kept in one of three forms, or not at all
    have hkeep (r : Participant) (m : Nat) (hr : LeftOf p r)
        (h : cleanupParticipants (done ++ [r]) m rest = some (left, n')) :
        q ∈ done ∨ ∃ p' ∈ p :: rest, LeftOf p' q := by
      rcases mem_cleanupParticipants h q hq with hdone | ⟨p', hp', hleft⟩
      · rcases mem_append.1 hdone with hdone | hdone
        · exact .inl hdone
        · exact .inr ⟨p, mem_cons_self, mem_singleton.1 hdone ▸ hr⟩
      · exact .inr ⟨p', mem_cons_of_mem _ hp', hleft⟩
    have hdrop (h : cleanupParticipants done n rest = some (left, n')) :
        q ∈ done ∨ ∃ p' ∈ p :: rest, LeftOf p' q := by
      rcases mem_cleanupParticipants h q hq with hdone | ⟨p', hp', hleft⟩
      · exact .inl hdone
      · exact .inr ⟨p', mem_cons_of_mem _ hp', hleft⟩
    unfold cleanupParticipants at h
    split at h
    · exact hkeep _ _ (.inl ⟨‹_›, rfl⟩) h
    have hstale : p.refreshed = false := eq_false_of_ne_true ‹_›
    split at h
    · exact hdrop h
    rename_i handle hcloned
    have hsome : p.cloned.isSome := by rw [hcloned]; rfl
    split at h
    · exact hkeep p _ (.inr ⟨hstale, hsome, p.updatedPermHandle, rfl⟩) h
    split at h
    · cases h
    · split at h
      · exact hkeep _ _ (.inr ⟨hstale, hsome, _, rfl⟩) h
      · exact hdrop h

theorem rematch_fields (ps : List Participant) (p : Participant) :
    (rematch nmatch ps p).handle = p.handle ∧ (rematch nmatch ps p).topics = p.topics ∧
      (rematch nmatch ps p).cloned.isSome = p.cloned.isSome := by
  unfold rematch
  split
  · exact ⟨rfl, rfl, rfl⟩
  rename_i handle hcloned
  split
  · exact ⟨rfl, rfl, rfl⟩
  · split
    · exact ⟨rfl, rfl, rfl⟩
    · exact ⟨rfl, rfl, by rw [hcloned]; rfl⟩

section
variable (h : db.updateDone nmatch = some db')
include h

theorem mem_updateDone (hp' : p' ∈ db'.participants) :
    ∃ p ∈ db.participants, ∃ q, LeftOf p q ∧ p'.handle = p.handle ∧ p'.cloned.isSome = p.cloned.isSome ∧
      p'.topics = optimizeRules (if p.cloned.isSome then [] else [.empty]) q.topics := by
  obtain ⟨⟨left, n⟩, hclean, rfl⟩ := map_eq_some_iff.1 h
  obtain ⟨q', hq', rfl⟩ := mem_map.1 hp'
  obtain ⟨q, hq, rfl⟩ := mem_map.1 hq'
  obtain ⟨hhandle, htopics, hcloned⟩ := @rematch_fields nmatch left q
  rcases mem_cleanupParticipants hclean q hq with hdone | ⟨p, hp, hleft⟩
  · cases hdone
  have hsame : q.handle = p.handle ∧ q.cloned = p.cloned := by
    rcases hleft with ⟨_, rfl⟩ | ⟨_, _, n, rfl⟩ <;> exact ⟨rfl, rfl⟩
  refine ⟨p, mem_reorderParticipants.1 hp, q, hleft, ?_, ?_, ?_⟩
  · exact hhandle.trans hsame.1
  · exact hcloned.trans (by rw [hsame.2])
  · show optimizeRules (if (rematch nmatch left q).cloned.isSome then [] else [.empty])
      (rematch nmatch left q).topics = _
    rw [hcloned, htopics, hsame.2]

theorem rule_updateDone (hp' : p' ∈ db'.participants) (hrule : p'.cloned = none) :
    ∃ p ∈ db.participants, p'.handle = p.handle ∧ p'.topics = moveExact [] [] (keptRules p.topics) := by
  obtain ⟨p, hp, q, hleft, hhandle, hcloned, htopics⟩ := mem_updateDone h hp'
  have hnone : p.cloned.isSome = false := by rw [← hcloned, hrule]; rfl
  rcases hleft with ⟨_, rfl⟩ | ⟨_, hsome, _⟩
  · refine ⟨p, hp, hhandle, ?_⟩
    rw [htopics, hnone, ← optimizeRules_eq]
    rfl
  · rw [hnone] at hsome
    cases hsome

theorem domain_updateDone (hd' : d' ∈ db'.domains) :
    ∃ d ∈ db.domains, d'.handle = d.handle ∧ d'.domainId = d.domainId ∧
      d'.topics = moveExact [] [] (keptRules d.topics) := by
  obtain ⟨⟨left, n⟩, _, rfl⟩ := map_eq_some_iff.1 h
  obtain ⟨e, he, rfl⟩ := mem_map.1 hd'
  obtain ⟨d, hd, hkept⟩ := mem_filterMap.1 he
  split at hkept
  · cases hkept
    exact ⟨d, hd, rfl, rfl, optimizeRules_eq d.topics⟩
  · cases hkept

end

end

/-! ## Databases that the calls build -/

def Db.Indexed (n : Nat) (db : Db) : Prop :=
  (∀ p ∈ db.participants, IndexedRules n p.topics) ∧ ∀ d ∈ db.domains, IndexedRules n d.topics

namespace Db.Indexed

variable {nmatch : Name → Name → Bool} {n : Nat} {db db' : Db}

theorem modifyParticipant (h : db.Indexed n) (handle : Nat)
    (hf : ∀ p, IndexedRules n p.topics → IndexedRules n (f p).topics) : (db.modifyParticipant handle f).Indexed n := by
  refine ⟨fun p hp => ?_, h.2⟩
  obtain ⟨q, hq, rfl⟩ := mem_map.1 hp
  split
  · exact hf q (h.1 q hq)
  · exact h.1 q hq

theorem modifyDomain (h : db.Indexed n) (handle : Nat)
    (hf : ∀ d, IndexedRules n d.topics → IndexedRules n (f d).topics) : (db.modifyDomain handle f).Indexed n := by
  refine ⟨h.1, fun d hd => ?_⟩
  obtain ⟨e, he, rfl⟩ := mem_map.1 hd
  split
  · exact hf e (h.2 e he)
  · exact h.2 e he

theorem modifyRules (h : db.Indexed n) (owner : Owner) (what : What) (touch : Bool)
    (hf : ∀ rules, IndexedRules n rules → IndexedRules n (f rules)) :
    (db.modifyRules owner what touch f).Indexed n := by
  cases owner with
  | participant handle =>
    refine h.modifyParticipant handle fun p hp => ?_
    cases what with
    | topic => exact hf _ hp
    | partition => exact hp
  | domain handle =>
    refine h.modifyDomain handle fun d hd => ?_
    cases what with
    | topic => exact hf _ hd
    | partition => exact hd

theorem addRuleTo (h : db.Indexed db.topicCounter) (owner : Owner) (what : What) :
    (db.addRuleTo owner what).2.Indexed (db.addRuleTo owner what).2.topicCounter := by
  unfold Db.addRuleTo
  split
  · exact h
  cases what with
  | topic =>
    cases owner with
    | participant handle =>
      refine ⟨forall_mem_map.2 fun q hq => ?_, fun d hd => (h.2 d hd).mono (le_succ _)⟩
      split
      · exact (h.1 q hq).add
      · exact (h.1 q hq).mono (le_succ _)
    | domain handle =>
      refine ⟨fun p hp => (h.1 p hp).mono (le_succ _), forall_mem_map.2 fun e he => ?_⟩
      split
      · exact (h.2 e he).add
      · exact (h.2 e he).mono (le_succ _)
  | partition =>
    cases owner with
    | participant handle =>
      refine ⟨forall_mem_map.2 fun q hq => ?_, h.2⟩
      split <;> exact h.1 q hq
    | domain handle =>
      refine ⟨h.1, forall_mem_map.2 fun e he => ?_⟩
      split <;> exact h.2 e he

theorem updateDone (h : db.Indexed n) (hdone : db.updateDone nmatch = some db') : db'.Indexed n := by
  refine ⟨fun p' hp' => ?_, fun d' hd' => ?_⟩
  · obtain ⟨p, hp, q, hleft, _, _, htopics⟩ := mem_updateDone hdone hp'
    have hq : IndexedRules n q.topics := by
      rcases hleft with ⟨_, rfl⟩ | ⟨_, _, _, rfl⟩
      · exact (h.1 p hp).cleanup
      · exact h.1 p hp
    rw [htopics]
    refine hq.optimized ?_
    split
    · exact ⟨nodup_nil, nofun⟩
    · exact IndexedRules.empty n
  · obtain ⟨d, hd, _, _, htopics⟩ := domain_updateDone hdone hd'
    rw [htopics]
    exact (h.2 d hd).kept.moved

theorem call (h : db.Indexed db.topicCounter) (hc : db.call nmatch c = some db') :
    db'.Indexed db'.topicCounter := by
  cases c with
  | addDomain =>
    cases hc
    refine ⟨h.1, fun d hd => ?_⟩
    rcases mem_append.1 hd with hd | hd
    · exact h.2 d hd
    · rw [mem_singleton.1 hd]
      exact IndexedRules.empty _
  | setDomainAccess handle domainId access exclusive =>
    cases hc
    exact h.modifyDomain handle fun _ hd => hd
  | removeDomain handle =>
    cases hc
    exact ⟨h.1, fun d hd => h.2 d (mem_of_mem_eraseP hd)⟩
  | addParticipant =>
    cases hc
    refine ⟨fun p hp => ?_, h.2⟩
    rcases mem_append.1 hp with hp | hp
    · exact h.1 p hp
    · rw [mem_singleton.1 hp]
      exact IndexedRules.empty _
  | setParticipantAccess handle name access blacklist =>
    cases hc
    unfold Db.setParticipantAccess
    split
    · exact h.modifyParticipant handle fun _ hp => hp
    · exact h
  | removeParticipant handle =>
    cases hc
    exact ⟨fun p hp => h.1 p (mem_of_mem_eraseP hp), h.2⟩
  | addRule owner what =>
    cases hc
    exact h.addRuleTo owner what
  | setRuleAccess owner what index name mode id blacklist =>
    cases hc
    unfold Db.setRuleAccess
    split
    · exact h
    split
    · have hset := h.modifyRules owner what true fun rules hr => hr.set index name mode id blacklist
      cases owner <;> exact hset
    · exact h
  | removeRule owner what index =>
    cases hc
    have hremoved := h.modifyRules owner what false fun rules hr => hr.eraseP (·.index == index)
    cases owner <;> exact hremoved
  | updateStart =>
    cases hc
    exact h
  | updateDone =>
    have hcounter : db'.topicCounter = db.topicCounter := by
      obtain ⟨_, _, rfl⟩ := map_eq_some_iff.1 hc
      rfl
    rw [hcounter]
    exact h.updateDone hc

theorem of_run (hr : Run (Db.call nmatch) (fun _ _ => True) Db.empty calls db) : db.Indexed db.topicCounter :=
  hr.invariant (fun _ db => db.Indexed db.topicCounter) ⟨nofun, nofun⟩ fun _ _ _ _ h _ hc => h.call hc

end Db.Indexed

/-! ## The most specific rule -/

section

variable {nmatch : Name → Name → Bool} {d d' : Domain} {p p' : Participant} {topic : Name}

theorem takenRule_participant : takenRule nmatch d p topic = some (.participant r) ↔
    p.topics.find? (fun r => r.appliesIn d.domainId && r.covers nmatch topic) = some r := by
  unfold takenRule
  split <;> rename_i hs <;> rw [hs] <;> simp

theorem takenRule_domain : takenRule nmatch d p topic = some (.domain r) ↔
    p.topics.find? (fun r => r.appliesIn d.domainId && r.covers nmatch topic) = none ∧
      d.topics.find? (·.covers nmatch topic) = some r := by
  unfold takenRule
  split <;> rename_i hs <;> rw [hs] <;> simp

theorem lookupTopic_iff : lookupTopic nmatch d p topic = some taken ↔
    takenRule nmatch d p topic = some taken ∧ taken.rule.blacklist = false := by
  unfold lookupTopic
  split
  · rename_i t ht
    rw [ht]
    by_cases hb : t.rule.blacklist = true
    · rw [if_pos hb]
      refine ⟨nofun, fun ⟨h, hn⟩ => ?_⟩
      cases h
      rw [hb] at hn
      cases hn
    · rw [if_neg hb]
      refine ⟨fun h => ⟨h, ?_⟩, fun h => h.1⟩
      rw [← Option.some.inj h]
      exact eq_false_of_ne_true hb
  · rename_i ht
    rw [ht]
    exact ⟨nofun, fun h => h.1⟩

theorem decides_iff_walks : MostSpecificDecides nmatch d p topic ↔
    (∀ r, p.topics.find? (fun r => r.appliesIn d.domainId && r.covers nmatch topic) = some r ↔
      Chosen nmatch (Rule.appliesIn d.domainId) topic p.topics r) ∧
    ((∀ r, ¬ Chosen nmatch (Rule.appliesIn d.domainId) topic p.topics r) →
      ∀ r, d.topics.find? (fun r => true && r.covers nmatch topic) = some r ↔
        Chosen nmatch (fun _ => true) topic d.topics r) := by
  constructor
  · rintro ⟨htaken, _⟩
    have hwalk := fun r => takenRule_participant.symm.trans (htaken (.participant r))
    refine ⟨hwalk, fun hnone r => ⟨fun h => ?_, fun h => ?_⟩⟩
    · have hfind := eq_none_iff_forall_ne_some.2 fun s hs => hnone s ((hwalk s).1 hs)
      exact ((htaken (.domain r)).1 (takenRule_domain.2 ⟨hfind, h⟩)).2
    · exact (takenRule_domain.1 ((htaken (.domain r)).2 ⟨hnone, h⟩)).2
  rintro ⟨hwalk, hdomain⟩
  have htaken : ∀ taken, takenRule nmatch d p topic = some taken ↔ ChosenFor nmatch d p topic taken := by
    intro taken
    cases taken with
    | participant r => exact takenRule_participant.trans (hwalk r)
    | domain r =>
      rw [takenRule_domain]
      constructor
      · rintro ⟨hfind, h⟩
        have hnone : ∀ s, ¬ Chosen nmatch (Rule.appliesIn d.domainId) topic p.topics s := by
          intro s hs
          rw [(hwalk s).2 hs] at hfind
          cases hfind
        exact ⟨hnone, (hdomain hnone r).1 h⟩
      · rintro ⟨hnone, h⟩
        refine ⟨eq_none_iff_forall_ne_some.2 fun s hs => hnone s ((hwalk s).1 hs), ?_⟩
        exact (hdomain hnone r).2 h
  exact ⟨htaken, fun taken => lookupTopic_iff.trans (by rw [htaken])⟩

theorem decides_iff (hid : d'.domainId = d.domainId) (hp : p'.topics = moveExact [] [] (keptRules p.topics))
    (hd : d'.topics = moveExact [] [] (keptRules d.topics)) (hpn : (keptRules p.topics).Nodup)
    (hdn : (keptRules d.topics).Nodup) :
    MostSpecificDecides nmatch d' p' topic ↔ LookupUndisturbed nmatch d p topic := by
  rw [decides_iff_walks, hid, hp, hd]
  simp only [chosen_perm (moveExact_perm _)]
  rw [takes_iff hpn, takes_iff hdn]
  exact Iff.rfl

end

/-! ## The domain -/

theorem specific_iff (id : Nat) (ds : List Domain) :
    ds.find? (fun d => d.domainId == id || (true && d.domainId == anyDomain)) =
        (ds.find? (·.domainId == id)).or (ds.find? (·.domainId == anyDomain)) ↔
      (id ∈ ds.map domainId → ∀ i ∈ (ds.map domainId).takeWhile (· != id), i ≠ anyDomain) := by
  simp only [Bool.true_and]
  induction ds with
  | nil => simp
  | cons d ds ih =>
    by_cases hid : d.domainId = id
    · simp [hid]
    by_cases hany : d.domainId = anyDomain
    · have hne : anyDomain ≠ id := fun h => hid (hany.trans h)
      have hfind : ds.find? (·.domainId == id) = none ↔ id ∉ ds.map domainId := by simp
      simp only [hany, map_cons, mem_cons, hne.symm, false_or, find?_cons, beq_self_eq_true,
        Bool.or_true, beq_eq_false_iff_ne.2 hne, takeWhile_cons, bne_iff_ne.2 hne, if_true]
      by_cases hmem : id ∈ ds.map domainId
      · obtain ⟨e, he⟩ := ne_none_iff_exists'.1 fun h => hfind.1 h hmem
        have heid : e.domainId = id := by simpa using find?_some he
        refine ⟨fun h => ?_, fun h => absurd rfl (h hmem anyDomain (.inl rfl))⟩
        rw [he] at h
        exact absurd ((congrArg domainId (Option.some.inj h)).symm.trans hany) fun h => hne (h.symm.trans heid)
      · refine ⟨fun _ h => absurd h hmem, fun _ => ?_⟩
        rw [hfind.2 hmem]
        rfl
    have hid' : (d.domainId == id) = false := beq_eq_false_iff_ne.2 hid
    have hany' : (d.domainId == anyDomain) = false := beq_eq_false_iff_ne.2 hany
    simp only [find?_cons, hid', hany', Bool.or_self, ih, map_cons, mem_cons, Ne.symm hid, false_or,
      takeWhile_cons, bne_iff_ne.2 hid, if_true]
    refine forall_congr' fun _ => ⟨fun h i hi => ?_, fun h i hi => h i (.inr hi)⟩
    rcases hi with rfl | hi
    · exact hany
    · exact h i hi

theorem updateDone_domainIds {db db' : Db} (h : db.updateDone nmatch = some db') :
    db'.domains.map domainId = (db.domains.filter (·.refreshed)).map domainId := by
  obtain ⟨_, _, rfl⟩ := map_eq_some_iff.1 h
  unfold cleanupDomains
  induction db.domains with
  | nil => rfl
  | cons d ds ih =>
    by_cases hr : d.refreshed = true
    · rw [filterMap_cons, if_pos hr, filter_cons_of_pos hr]
      simp only [map_cons, ih]
      rfl
    · rw [filterMap_cons, if_neg hr, filter_cons_of_neg hr]
      exact ih

theorem specificFirst_iff {db db' : Db} (h : db.updateDone nmatch = some db') (id : Nat) :
    db'.SpecificFirst id ↔ db.DefaultBehind id := by
  unfold Db.SpecificFirst Db.lookupDomain Db.DefaultBehind
  have hmem : id ∈ (db.domains.filter (·.refreshed)).map domainId ↔
      ∃ d ∈ db.domains, d.refreshed = true ∧ d.domainId = id := by
    simp [and_assoc]
  rw [specific_iff, updateDone_domainIds h, takeWhile_map, hmem]
  refine imp_congr_right fun _ => ⟨fun hids d hd => hids _ (mem_map_of_mem hd), fun hds i hi => ?_⟩
  obtain ⟨d, hd, rfl⟩ := mem_map.1 hi
  exact hds d hd

/-- **The most specific rule decides exactly when nothing comes to stand before it**, and a domain is found by its
number first exactly when the one for all others is behind it: after every update. -/
theorem mostSpecificDecides_iff {nmatch : Name → Name → Bool} {calls : List Call} {db db' : Db}
    (hr : Run (Db.call nmatch) (fun _ _ => True) Db.empty calls db) (hdone : db.updateDone nmatch = some db') :
    (∀ p' ∈ db'.participants, p'.cloned = none → ∀ d' ∈ db'.domains,
      ∃ p ∈ db.participants, ∃ d ∈ db.domains, p'.handle = p.handle ∧ d'.handle = d.handle ∧
        ∀ topic, MostSpecificDecides nmatch d' p' topic ↔ LookupUndisturbed nmatch d p topic) ∧
      ∀ id, db'.SpecificFirst id ↔ db.DefaultBehind id := by
  have hindexed := Db.Indexed.of_run hr
  refine ⟨fun p' hp' hrule d' hd' => ?_, specificFirst_iff hdone⟩
  obtain ⟨p, hp, hphandle, hptopics⟩ := rule_updateDone hdone hp' hrule
  obtain ⟨d, hd, hdhandle, hid, hdtopics⟩ := domain_updateDone hdone hd'
  refine ⟨p, hp, d, hd, hphandle, hdhandle, fun topic => ?_⟩
  exact decides_iff hid hptopics hdtopics (hindexed.1 p hp).kept.nodup (hindexed.2 d hd).kept.nodup

def twoTopics (first second : Nat) (name : Option Name) : List Call :=
  [.updateStart, .addDomain, .setDomainAccess 1 first secret false, .addDomain, .setDomainAccess 2 second secret false,
    .addParticipant, .setParticipantAccess 1 ['*'] secret false,
    .addRule (.participant 1) .topic,
    .setRuleAccess (.participant 1) .topic 1 (some ['a']) ⟨true, true, false, true⟩ 3 false,
    .addRule (.participant 1) .topic, .setRuleAccess (.participant 1) .topic 2 name .all 3 false]

def builtStar : Db :=
  (exec (Db.call glob) (fun _ _ => True) Db.empty (twoTopics 3 anyDomain (some ['*']))).get (by decide)

theorem mostSpecificDecides_star :
    (∀ p' ∈ ((builtStar.updateDone glob).get (by decide)).participants, p'.cloned = none →
      ∀ d' ∈ ((builtStar.updateDone glob).get (by decide)).domains,
        ∃ p ∈ builtStar.participants, ∃ d ∈ builtStar.domains, p'.handle = p.handle ∧ d'.handle = d.handle ∧
          ∀ topic, MostSpecificDecides glob d' p' topic ↔ LookupUndisturbed glob d p topic) ∧
      ∀ id, ((builtStar.updateDone glob).get (by decide)).SpecificFirst id ↔ builtStar.DefaultBehind id :=
  mostSpecificDecides_iff (Run.of_isSome _) (eq_some_of_isSome _)

/-- **A rule for everything goes before the rule for the topic, and the domain for all others is taken first.**  The
topic may be written, although its own rule only lets it be read. -/
theorem not_mostSpecificDecides :
    ∃ calls db db', Run (Db.call glob) (fun _ _ => True) Db.empty calls db ∧ db.updateDone glob = some db' ∧
      (∃ p' ∈ db'.participants, p'.cloned = none ∧ ∃ d' ∈ db'.domains, d'.domainId = 3 ∧
        (lookupTopic glob d' p' ['a']).map (·.rule.mode.write) = some true ∧ ¬ MostSpecificDecides glob d' p' ['a']) ∧
      ¬ db'.SpecificFirst 3 := by
  refine ⟨twoTopics anyDomain 3 none, _, _, Run.of_isSome, eq_some_of_isSome (by decide),
    ⟨_, mem_cons_self, rfl, _, mem_cons_of_mem _ mem_cons_self, by decide, by decide, ?_⟩, ?_⟩
  · rintro ⟨htaken, -⟩
    -- the rule for the topic stands second
    have hchosen := (htaken (.participant ⟨1, 3, some ['a'], ⟨true, true, false, true⟩, false, false⟩)).2
      ⟨by decide, by decide, .inl ⟨by decide, by decide⟩⟩
    revert hchosen
    decide
  · unfold Db.SpecificFirst
    decide

end Qeo.Access
