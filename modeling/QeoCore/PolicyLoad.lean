import QeoCore.PolicyCache
/-!
# PolicyLoad — from a policy to the cache

A policy as its author writes it, what its rules grant, and the cache that the parser's callbacks make of it.
-/
namespace Qeo.Security

open List TopicDesc RuleEntry Perms Wildcard

variable {topics : List TopicDesc} {n : Name}

/-- A rule of a policy: what the participant may do, or from whom it may read and to whom it may write. -/
inductive Rule where
  | coarse (perms : Perms)
  | fine (sections : List (Dir × Name))
  deriving DecidableEq

/-- A participant lists each topic name at most once, a name has a wildcard only at its end, and a fine grained rule has
a section. -/
structure Participant where
  tag : Name
  rules : List (Name × Rule)
  nodup : (rules.map Prod.fst).Nodup := by decide
  trailing : ∀ nr ∈ rules, Trailing '*' nr.1 := by decide
  sections_ne_nil : ∀ nr ∈ rules, nr.2 ≠ .fine [] := by decide

open Participant

structure Policy where
  participants : List Participant
  nodup : (participants.map tag).Nodup := by decide

def Policy.tags (policy : Policy) : List Name := policy.participants.map tag

def Rule.grants (tags : List Name) (d : Dir) (user : Name) : Rule → Prop
  | coarse perms => perms.get d = true ∧ user ∈ tags ∧ isUser user = true
  | fine sections => (d, user) ∈ sections ∧ isUser user = true

theorem Rule.isUser_of_grants : ∀ {r : Rule}, r.grants tags d user → isUser user = true
  | coarse _, h => h.2.2
  | fine _, h => h.2

def Rule.isFine : Rule → Bool
  | coarse _ => false
  | fine _ => true

/-! ## The callbacks of the parser -/

def Cache.loadRule (tag : Name) (cache : Cache) (nr : Name × Rule) : Cache :=
  match nr.2 with
  | .coarse perms => (cache.addCoarseGrainedRule tag nr.1 perms).1
  | .fine sections =>
    sections.foldl (fun cache dn => (cache.addFineGrainedRuleSection tag nr.1 (only dn.1) dn.2).1) cache

open Security.Cache

def Cache.loadParticipant (cache : Cache) (p : Participant) : Cache :=
  p.rules.foldl (Cache.loadRule p.tag) (cache.addParticipantTag p.tag)

def Policy.load (policy : Policy) : Cache := policy.participants.foldl loadParticipant ⟨[], []⟩

/-! ## The participants of the cache -/

def Rule.toU : Rule → RuleU
  | coarse perms => .coarse (some perms)
  | fine sections => sections.foldl (fun u dn => u.addSection (only dn.1) dn.2) (.fine [] [])

def Rule.entry (nr : Name × Rule) : RuleEntry := ⟨nr.1, nr.2.toU⟩

def Participant.desc (p : Participant) : ParticipantDesc := ⟨p.tag, p.rules.map Rule.entry⟩

section

variable {ps : List ParticipantDesc} {tag topic : Name} {es : List RuleEntry}

theorem onParticipant_last (topics : List TopicDesc) (ps : List ParticipantDesc) (hf : f ⟨tag, es⟩ = .ok part) :
    onParticipant ⟨topics, ps ++ [⟨tag, es⟩]⟩ tag f = (⟨topics, ps ++ [part]⟩, none) := by
  have key : onLast tag f (ps ++ [⟨tag, es⟩]) = some (.ok (ps ++ [part])) := by
    induction ps with
    | nil => simp [onLast, hf, Except.map]
    | cons p ps ih =>
      rw [cons_append, onLast, ih]
      rfl
  simp only [onParticipant, key]

section
variable (h : topic ∉ es.map RuleEntry.topic)
include h

theorem find_eq_none : ParticipantDesc.find ⟨tag, es⟩ topic = none :=
  find?_eq_none.2 fun e he => by simpa using fun hc : e.topic = topic => h (hc ▸ mem_map_of_mem he)

theorem find_last (u : RuleU) : ParticipantDesc.find ⟨tag, es ++ [⟨topic, u⟩]⟩ topic = some ⟨topic, u⟩ := by
  have hes : es.find? (·.topic == topic) = none := find?_eq_none.2 fun e he => by
    simpa using fun hc : e.topic = topic => h (hc ▸ mem_map_of_mem he)
  simp [ParticipantDesc.find, find?_append, hes]

theorem map_update_of_not_mem (f : RuleU → RuleU) : es.map (update topic f) = es := by
  have hne : ∀ e ∈ es, update topic f e = e := fun e he =>
    if_neg fun hc : e.topic = topic => h (hc ▸ mem_map_of_mem he)
  rw [map_congr_left hne, map_id']

theorem modify_last (u : RuleU) (f : RuleU → RuleU) :
    ParticipantDesc.modify ⟨tag, es ++ [⟨topic, u⟩]⟩ topic f = ⟨tag, es ++ [⟨topic, f u⟩]⟩ := by
  simp only [ParticipantDesc.modify, map_append, map_update_of_not_mem h, map_cons, map_nil]
  rw [update, if_pos rfl]

end

section
variable (topics : List TopicDesc) (h : topic ∉ es.map RuleEntry.topic)
include h

theorem addCoarse_new (perms : Perms) :
    (addCoarseGrainedRule ⟨topics, ps ++ [⟨tag, es⟩]⟩ tag topic perms).1 =
      ⟨addTopic topics topic true, ps ++ [⟨tag, es ++ [⟨topic, .coarse (some perms)⟩]⟩]⟩ := by
  unfold addCoarseGrainedRule
  rw [onParticipant_last]
  unfold ParticipantDesc.addCoarseGrained
  rw [find_eq_none h]
  rfl

theorem addSection_new (perms : Perms) (n : Name) :
    (addFineGrainedRuleSection ⟨topics, ps ++ [⟨tag, es⟩]⟩ tag topic perms n).1 =
      ⟨addTopic topics topic false, ps ++ [⟨tag, es ++ [⟨topic, (RuleU.fine [] []).addSection perms n⟩]⟩]⟩ := by
  unfold addFineGrainedRuleSection
  rw [onParticipant_last]
  unfold ParticipantDesc.addFineGrainedRuleSection
  rw [find_eq_none h]
  rfl

theorem addSection_last (u : RuleU) (perms : Perms) (n : Name) :
    (addFineGrainedRuleSection ⟨topics, ps ++ [⟨tag, es ++ [⟨topic, u⟩]⟩]⟩ tag topic perms n).1 =
      ⟨addTopic topics topic false, ps ++ [⟨tag, es ++ [⟨topic, u.addSection perms n⟩]⟩]⟩ := by
  unfold addFineGrainedRuleSection
  rw [onParticipant_last]
  unfold ParticipantDesc.addFineGrainedRuleSection
  rw [find_last h]
  exact congrArg Except.ok (modify_last h u _)

theorem loadSections (sections : List (Dir × Name)) (u : RuleU) :
    (sections.foldl (fun cache dn => (addFineGrainedRuleSection cache tag topic (only dn.1) dn.2).1)
      ⟨topics, ps ++ [⟨tag, es ++ [⟨topic, u⟩]⟩]⟩).participants =
    ps ++ [⟨tag, es ++ [⟨topic, sections.foldl (fun u dn => u.addSection (only dn.1) dn.2) u⟩]⟩] := by
  induction sections generalizing topics u with
  | nil => rfl
  | cons dn sections ih =>
    rw [foldl_cons, addSection_last _ h]
    exact ih _ _

theorem loadRule_participants : ∀ r : Rule, r ≠ .fine [] →
    (Cache.loadRule tag ⟨topics, ps ++ [⟨tag, es⟩]⟩ (topic, r)).participants = ps ++ [⟨tag, es ++ [⟨topic, r.toU⟩]⟩]
  | .coarse perms, _ => congrArg participants (addCoarse_new topics h perms)
  | .fine [], hne => absurd rfl hne
  | .fine (dn :: sections), _ => by
    simp only [Cache.loadRule, foldl_cons, addSection_new _ h]
    exact loadSections _ h sections _

end

theorem loadRules_participants (cache : Cache) (rules : List (Name × Rule))
    (hc : cache.participants = ps ++ [⟨tag, es⟩]) (hn : (es.map RuleEntry.topic ++ rules.map Prod.fst).Nodup)
    (hne : ∀ nr ∈ rules, nr.2 ≠ .fine []) :
    (rules.foldl (Cache.loadRule tag) cache).participants = ps ++ [⟨tag, es ++ rules.map Rule.entry⟩] := by
  induction rules generalizing cache es with
  | nil => simpa using hc
  | cons nr rules ih =>
    have hnr : nr.1 ∉ es.map RuleEntry.topic := fun hm => (nodup_append.1 hn).2.2 _ hm _ (mem_cons_self ..) rfl
    have hstep := @loadRule_participants ps tag _ _ cache.topics hnr nr.2 (hne nr (mem_cons_self ..))
    rw [← hc] at hstep
    rw [foldl_cons, ih _ hstep (by simpa [Rule.entry] using hn) (forall_mem_cons.1 hne).2]
    simp [Rule.entry]

end

theorem loadParticipant_participants (cache : Cache) (p : Participant) :
    (cache.loadParticipant p).participants = cache.participants ++ [p.desc] :=
  @loadRules_participants _ p.tag [] _ p.rules rfl (by simpa using p.nodup) p.sections_ne_nil

theorem load_participants (policy : Policy) :
    policy.load.participants = policy.participants.map desc := by
  have key : ∀ (l : List Participant) (cache : Cache),
      (l.foldl loadParticipant cache).participants = cache.participants ++ l.map desc := by
    intro l
    induction l with
    | nil => simp
    | cons p l ih =>
      intro cache
      rw [foldl_cons, ih, loadParticipant_participants]
      simp
  exact (key policy.participants ⟨[], []⟩).trans (nil_append _)

/-! ## The topics of the cache -/

def FineIn (topics : List TopicDesc) (n : Name) : Prop := ∃ t ∈ topics, t.name = n ∧ t.coarseGrained = false

structure Noted (calls : List (Name × Bool)) (topics : List TopicDesc) : Prop where
  nodup : (topics.map name).Nodup
  mem_iff : ∀ n, n ∈ topics.map name ↔ n ∈ calls.map Prod.fst
  fine_iff : ∀ n, FineIn topics n ↔ (n, false) ∈ calls

theorem addTopic_names_of_mem (h : n ∈ topics.map name) (c : Bool) :
    (addTopic topics n c).map name = topics.map name := by
  unfold addTopic
  split
  · next hf =>
    obtain ⟨t, ht, rfl⟩ := mem_map.1 h
    exact absurd (find?_eq_none.1 hf t ht) (by simp)
  split
  · rw [map_map]
    exact map_congr_left fun t _ => by simp only [Function.comp_apply]; split <;> rfl
  · rfl

theorem addTopic_of_not_mem (h : n ∉ topics.map name) (c : Bool) :
    addTopic topics n c = topics ++ [⟨n, c⟩] := by
  have hf : topics.find? (·.name == n) = none :=
    find?_eq_none.2 fun t ht => by simpa using fun he : t.name = n => h (he ▸ mem_map_of_mem ht)
  rw [addTopic, hf]

theorem fineIn_mark (h : n ∈ topics.map name) (m : Name) :
    FineIn (topics.map fun t => if t.name = n then { t with coarseGrained := false } else t) m ↔
      FineIn topics m ∨ m = n := by
  constructor
  · rintro ⟨_, ht', hm, hc⟩
    obtain ⟨t, ht, rfl⟩ := mem_map.1 ht'
    by_cases hn : t.name = n
    · rw [if_pos hn] at hm
      exact .inr (hm.symm.trans hn)
    · rw [if_neg hn] at hm hc
      exact .inl ⟨t, ht, hm, hc⟩
  · rintro (⟨t, ht, hm, hc⟩ | rfl)
    · refine ⟨_, mem_map_of_mem ht, ?_, ?_⟩ <;> split <;> first | exact hm | exact hc | rfl
    · obtain ⟨t, ht, rfl⟩ := mem_map.1 h
      refine ⟨_, mem_map_of_mem ht, ?_, ?_⟩ <;> rw [if_pos rfl]

theorem find?_of_nodup (hn : (topics.map name).Nodup)
    (ht : t ∈ topics) : topics.find? (·.name == t.name) = some t := by
  obtain ⟨t', ht'⟩ : ∃ t', topics.find? (·.name == t.name) = some t' :=
    Option.isSome_iff_exists.1 (find?_isSome.2 ⟨t, ht, by simp⟩)
  have hname : t'.name = t.name := by simpa using find?_some ht'
  rw [ht', inj_on_of_nodup_map hn (mem_of_find?_eq_some ht') ht hname]

theorem fineIn_addTopic_of_mem (hn : (topics.map name).Nodup)
    (h : n ∈ topics.map name) (c : Bool) (m : Name) :
    FineIn (addTopic topics n c) m ↔ FineIn topics m ∨ (m = n ∧ c = false) := by
  have hmark := fineIn_mark h m
  obtain ⟨t, ht, rfl⟩ := mem_map.1 h
  simp only [addTopic, find?_of_nodup hn ht]
  cases htc : t.coarseGrained <;> cases c
  · simp only [bne_self_eq_false, Bool.false_eq_true, if_false, and_true]
    exact ⟨.inl, fun h => h.elim id fun he => ⟨t, ht, he.symm, htc⟩⟩
  · simp only [Bool.bne_true, Bool.not_false, if_true, Bool.true_eq_false, and_false, or_false, hmark]
    exact ⟨fun h => h.elim id fun he => ⟨t, ht, he.symm, htc⟩, .inl⟩
  · simp [Bool.bne_false, hmark]
  · simp [bne_self_eq_false, Bool.true_eq_false]

theorem Noted.addTopic (h : Noted calls topics) (n : Name)
    (c : Bool) : Noted (calls ++ [(n, c)]) (addTopic topics n c) := by
  by_cases hm : n ∈ topics.map name
  · refine ⟨?_, fun m => ?_, fun m => ?_⟩
    · rw [addTopic_names_of_mem hm]
      exact h.nodup
    · rw [addTopic_names_of_mem hm, h.mem_iff m, map_append, mem_append]
      refine ⟨.inl, fun h' => h'.elim id fun he => ?_⟩
      rw [mem_singleton.1 he]
      exact (h.mem_iff n).1 hm
    · rw [fineIn_addTopic_of_mem h.nodup hm, h.fine_iff, mem_append, mem_singleton, Prod.mk.injEq, eq_comm (b := c)]
  rw [addTopic_of_not_mem hm]
  refine ⟨?_, fun m => ?_, fun m => ?_⟩
  · rw [map_append]
    exact h.nodup.append (nodup_singleton n) fun x hx hx' => by
      obtain rfl : x = n := mem_singleton.1 hx'
      exact hm hx
  · rw [map_append, map_append, mem_append, mem_append, h.mem_iff m]
    rfl
  · rw [mem_append, ← h.fine_iff m, mem_singleton, Prod.mk.injEq]
    unfold FineIn
    simp only [mem_append, mem_singleton, or_and_right, exists_or, exists_eq_left, eq_comm]

def Rule.calls (nr : Name × Rule) : List (Name × Bool) :=
  match nr.2 with
  | coarse _ => [(nr.1, true)]
  | fine sections => sections.map fun _ => (nr.1, false)

theorem onParticipant_topics (cache : Cache) (tag : Name) (f : ParticipantDesc → Except Fail ParticipantDesc) :
    (cache.onParticipant tag f).1.topics = cache.topics := by
  unfold onParticipant
  split <;> rfl

theorem Noted.loadSections (h : Noted calls cache.topics) (tag n : Name) (sections : List (Dir × Name)) :
    Noted (calls ++ sections.map fun _ => (n, false))
      (sections.foldl (fun cache dn => (addFineGrainedRuleSection cache tag n (only dn.1) dn.2).1)
        cache).topics := by
  induction sections generalizing calls cache with
  | nil => simpa using h
  | cons dn sections ih =>
    have hstep : Noted (calls ++ [(n, false)])
        (cache.addFineGrainedRuleSection tag n (only dn.1) dn.2).1.topics := by
      rw [addFineGrainedRuleSection, onParticipant_topics]
      exact h.addTopic n false
    simpa using ih hstep

theorem Noted.loadRule {cache : Cache} (h : Noted calls cache.topics) (tag n : Name) :
    ∀ r : Rule, Noted (calls ++ Rule.calls (n, r)) (cache.loadRule tag (n, r)).topics
  | .coarse perms => by
    simp only [Cache.loadRule, addCoarseGrainedRule, onParticipant_topics]
    exact h.addTopic n true
  | .fine sections => h.loadSections tag n sections

theorem Noted.loadRules (h : Noted calls cache.topics) (tag : Name) (rules : List (Name × Rule)) :
    Noted (calls ++ rules.flatMap Rule.calls) (rules.foldl (Cache.loadRule tag) cache).topics := by
  induction rules generalizing calls cache with
  | nil => simpa using h
  | cons nr rules ih => simpa using ih (h.loadRule tag nr.1 nr.2)

theorem load_noted (policy : Policy) :
    Noted (policy.participants.flatMap fun p => p.rules.flatMap Rule.calls) policy.load.topics := by
  have key : ∀ (l : List Participant) (calls : List (Name × Bool)) (cache : Cache), Noted calls cache.topics →
      Noted (calls ++ l.flatMap fun p => p.rules.flatMap Rule.calls) (l.foldl loadParticipant cache).topics := by
    intro l
    induction l with
    | nil => exact fun calls cache h => by simpa using h
    | cons p l ih =>
      intro calls cache h
      have htag : Noted calls (cache.addParticipantTag p.tag).topics := h
      have hp : Noted (calls ++ p.rules.flatMap Rule.calls) (cache.loadParticipant p).topics :=
        htag.loadRules p.tag p.rules
      simpa using ih _ _ hp
  have start : Noted [] ([] : List TopicDesc) :=
    ⟨nodup_nil, fun n => Iff.rfl, fun n => ⟨fun ⟨_, ht, _⟩ => absurd ht (not_mem_nil), nofun⟩⟩
  exact key policy.participants [] ⟨[], []⟩ start

/-! ## What is in the policy -/

namespace Policy

def Lists (policy : Policy) (n : Name) : Prop := ∃ p ∈ policy.participants, ∃ r, (n, r) ∈ p.rules

def ListsFine (policy : Policy) (n : Name) : Prop :=
  ∃ p ∈ policy.participants, ∃ sections, (n, Rule.fine sections) ∈ p.rules

end Policy

theorem mem_calls_of_rule : ∀ {r : Rule}, r ≠ .fine [] → n ∈ (Rule.calls (n, r)).map Prod.fst
  | .coarse _, _ => mem_singleton.2 rfl
  | .fine [], h => absurd rfl h
  | .fine (_ :: _), _ => mem_cons_self ..

theorem rule_of_mem_calls : ∀ {nr : Name × Rule}, (n, c) ∈ Rule.calls nr →
    nr.1 = n ∧ (c = false → nr.2.isFine = true)
  | (_, .coarse _), h => by
    simp only [Rule.calls, mem_singleton, Prod.mk.injEq] at h
    exact ⟨h.1.symm, fun hc => by simp [hc] at h⟩
  | (_, .fine _), h => by
    simp only [Rule.calls, mem_map, Prod.mk.injEq] at h
    obtain ⟨_, _, rfl, _⟩ := h
    exact ⟨rfl, fun _ => rfl⟩

theorem load_topics_nodup (policy : Policy) : (policy.load.topics.map name).Nodup := (load_noted policy).nodup

theorem mem_load_topics (policy : Policy) (n : Name) :
    n ∈ policy.load.topics.map name ↔ policy.Lists n := by
  rw [(load_noted policy).mem_iff n]
  constructor
  · intro h
    obtain ⟨⟨_, c⟩, hc, rfl⟩ := mem_map.1 h
    obtain ⟨p, hp, hc⟩ := mem_flatMap.1 hc
    obtain ⟨nr, hnr, hc⟩ := mem_flatMap.1 hc
    exact ⟨p, hp, nr.2, (rule_of_mem_calls hc).1 ▸ hnr⟩
  · rintro ⟨p, hp, r, hr⟩
    obtain ⟨x, hx, rfl⟩ := mem_map.1 (mem_calls_of_rule (n := n) (p.sections_ne_nil _ hr))
    exact mem_map.2 ⟨x, mem_flatMap.2 ⟨p, hp, mem_flatMap.2 ⟨_, hr, hx⟩⟩, rfl⟩

/-- **A topic is fine grained as soon as one participant has a fine grained rule for it.** -/
theorem fineIn_load_topics (policy : Policy) (n : Name) : FineIn policy.load.topics n ↔ policy.ListsFine n := by
  rw [(load_noted policy).fine_iff n]
  constructor
  · intro h
    obtain ⟨p, hp, hc⟩ := mem_flatMap.1 h
    obtain ⟨⟨m, r⟩, hnr, hc⟩ := mem_flatMap.1 hc
    obtain ⟨rfl, hr⟩ := rule_of_mem_calls hc
    cases r with
    | coarse perms => exact absurd (hr rfl) Bool.false_ne_true
    | fine sections => exact ⟨p, hp, sections, hnr⟩
  · rintro ⟨p, hp, sections, hr⟩
    have hne : sections ≠ [] := fun he => p.sections_ne_nil _ hr (congrArg Rule.fine he)
    obtain ⟨dn, hdn⟩ := exists_mem_of_ne_nil _ hne
    exact mem_flatMap.2 ⟨p, hp, mem_flatMap.2 ⟨_, hr, mem_map.2 ⟨dn, hdn, rfl⟩⟩⟩

end Qeo.Security
