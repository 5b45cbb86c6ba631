import QeoCore.PolicyTopics
/-!
# PolicyComplete — the rules of a participant while they are completed

The walk over the topics goes from the longest name to the shortest.  Names are compared with the wildcard counted in,
so a pattern may come before a name that it covers, and is then expanded to a topic that has a rule already.
-/
namespace Qeo.Security

open ParticipantDesc RuleEntry TopicDesc Rule

open Wildcard
open List hiding sections

/-! ## Adding sections to one entry -/

section

variable {tag topic : Name} {es : List RuleEntry} {m : RuleEntry}

theorem update_topic (topic : Name) (f : RuleU → RuleU) (e : RuleEntry) : (e.update topic f).topic = e.topic := by
  unfold update
  split <;> rfl

theorem map_update_topics (topic : Name) (f : RuleU → RuleU) (es : List RuleEntry) :
    (es.map (update topic f)).map RuleEntry.topic = es.map RuleEntry.topic := by
  rw [map_map]
  exact map_congr_left fun e _ => update_topic topic f e

def sectionsOf (read write : List Name) : List (Dir × Name) :=
  read.map (Prod.mk Dir.read) ++ write.map (Prod.mk Dir.write)

theorem mem_sectionsOf {read write : List Name} :
    (d, user) ∈ sectionsOf read write ↔ user ∈ RuleU.list read write d := by
  cases d <;> simp [sectionsOf, RuleU.list]

theorem expandFine_eq (part : ParticipantDesc) (topic : Name) (read write : List Name) :
    part.expandFine topic read write = (sectionsOf read write).foldl
      (fun part dn => part.addFineGrainedRuleSection topic (Perms.only dn.1) dn.2) part := by
  rw [sectionsOf, foldl_append, foldl_map, foldl_map]
  rfl

theorem sections_of_mem (h : topic ∈ es.map RuleEntry.topic) (sections : List (Dir × Name)) :
    ∃ f, sections.foldl (fun part dn => part.addFineGrainedRuleSection topic (Perms.only dn.1) dn.2)
      (⟨tag, es⟩ : ParticipantDesc) = ⟨tag, es.map (update topic f)⟩ := by
  induction sections generalizing es with
  | nil =>
    refine ⟨id, ?_⟩
    have hid : ∀ e ∈ es, update topic id e = e := fun e _ => by
      unfold update
      split <;> rfl
    rw [map_congr_left hid, map_id']
    rfl
  | cons dn sections ih =>
    obtain ⟨e, he, hname⟩ := mem_map.1 h
    obtain ⟨e', hfind⟩ : ∃ e', find ⟨tag, es⟩ topic = some e' :=
      Option.isSome_iff_exists.1 (find?_isSome.2 ⟨e, he, by simpa using hname⟩)
    have hmem : topic ∈ (es.map (update topic (·.addSection (Perms.only dn.1) dn.2))).map RuleEntry.topic := by
      rw [map_update_topics]
      exact h
    obtain ⟨f, hf⟩ := ih hmem
    refine ⟨fun u => f (u.addSection (Perms.only dn.1) dn.2), ?_⟩
    rw [foldl_cons, addFineGrainedRuleSection, hfind]
    simp only [ParticipantDesc.modify]
    rw [hf, map_map]
    congr 1
    refine map_congr_left fun e _ => ?_
    by_cases hc : e.topic = topic <;> simp [update, hc]

theorem sections_of_not_mem (h : topic ∉ es.map RuleEntry.topic) (dn : Dir × Name) (sections : List (Dir × Name)) :
    (dn :: sections).foldl (fun part dn => part.addFineGrainedRuleSection topic (Perms.only dn.1) dn.2)
      (⟨tag, es⟩ : ParticipantDesc) = ⟨tag, es ++ [⟨topic, (fine (dn :: sections)).toU⟩]⟩ := by
  have key : ∀ u, sections.foldl (fun part dn => part.addFineGrainedRuleSection topic (Perms.only dn.1) dn.2)
      (⟨tag, es ++ [⟨topic, u⟩]⟩ : ParticipantDesc) =
      ⟨tag, es ++ [⟨topic, sections.foldl (fun u dn => u.addSection (Perms.only dn.1) dn.2) u⟩]⟩ := by
    induction sections with
    | nil => exact fun u => rfl
    | cons dn' sections ih =>
      intro u
      rw [foldl_cons, addFineGrainedRuleSection, find_last h]
      simp only [modify_last h]
      exact ih _
  rw [foldl_cons, addFineGrainedRuleSection, find_eq_none h]
  exact key _

end

/-! ## The cases of one pass -/

section

variable {tags : List Name} {tag n : Name} {es : List RuleEntry} {t : TopicDesc} {perms : Perms}

theorem completeRule_none (hf : findMatch es t.name = none) :
    completeRule tags ⟨tag, es⟩ t = .ok ⟨tag, es⟩ := by
  unfold completeRule
  simp only [hf]

theorem completeRule_coarse_exact (hf : findMatch es t.name = some (⟨n, .coarse (some perms)⟩, false)) :
    completeRule tags ⟨tag, es⟩ t = .ok (if t.coarseGrained then ⟨tag, es⟩ else
      ⟨tag, es.map (update t.name fun _ => convertCoarseToFine tags perms)⟩) := by
  unfold completeRule
  simp only [hf]
  cases t.coarseGrained <;> rfl

theorem completeRule_coarse_old (hf : findMatch es t.name = some (⟨n, .coarse (some perms)⟩, true))
    (h : t.name ∈ es.map RuleEntry.topic) :
    completeRule tags ⟨tag, es⟩ t = .error .einval := by
  obtain ⟨e, he, hname⟩ := mem_map.1 h
  obtain ⟨e', hfind⟩ : ∃ e', find ⟨tag, es⟩ t.name = some e' :=
    Option.isSome_iff_exists.1 (find?_isSome.2 ⟨e, he, by simpa using hname⟩)
  unfold completeRule
  simp only [hf, addCoarseGrained, hfind]
  rfl

theorem completeRule_coarse_new (hf : findMatch es t.name = some (⟨n, .coarse (some perms)⟩, true))
    (h : t.name ∉ es.map RuleEntry.topic) :
    completeRule tags ⟨tag, es⟩ t =
      .ok ⟨tag, es ++ [⟨t.name, (coarse perms).settle tags t.coarseGrained⟩]⟩ := by
  unfold completeRule
  simp only [hf, addCoarseGrained, find_eq_none h, append]
  cases t.coarseGrained with
  | true => rfl
  | false => exact congrArg Except.ok (modify_last h _ _)

theorem completeRule_fine {read write : List Name} (hf : findMatch es t.name = some (⟨n, .fine read write⟩, wc)) :
    completeRule tags ⟨tag, es⟩ t =
      .ok (if wc then expandFine ⟨tag, es⟩ t.name read write else ⟨tag, es⟩) := by
  unfold completeRule
  simp only [hf]

end

/-! ## The invariant of the walk -/

/-- How far the completion of a participant has come: `own` are its own rules, longest first, and `added` those its
patterns were expanded to for topics in `done`, where a rule behind one of its patterns is left out. -/
structure Completing (policy : Policy) (p : Participant) (done : List TopicDesc) (own added : List RuleEntry) :
    Prop where
  names : own.map RuleEntry.topic = p.desc.sortRules.ruleEntries.map RuleEntry.topic
  waiting : ∀ e ∈ own, e.topic ∉ done.map name → ∃ r, (e.topic, r) ∈ p.rules ∧ e.u = r.toU
  settled : ∀ e ∈ own, ∀ t ∈ done, e.topic = t.name → Leads '*' p.Has t.name t.name →
    ∃ r, (t.name, r) ∈ p.rules ∧ e.u = r.settle policy.tags t.coarseGrained
  added_ok : ∀ e ∈ added, e.topic ∈ done.map name ∧ ¬p.Has e.topic ∧
    (∃ r, p.Best e.topic r ∧ Agrees policy.tags e.u r) ∧
    ('*' ∈ e.topic → (e.u.isFine = true ↔ policy.FineGrained e.topic))
  expanded : ∀ t ∈ done, '*' ∈ t.name → ¬p.Has t.name →
    (t.name ∈ added.map RuleEntry.topic ↔ ∃ r, p.Best t.name r ∧ r.Reaches)

namespace Completing

variable {policy : Policy} {p : Participant} {done : List TopicDesc} {own added : List RuleEntry}

theorem start (policy : Policy) (p : Participant) : Completing policy p [] p.desc.sortRules.ruleEntries [] where
  names := rfl
  waiting e he _ := by
    have he : e ∈ p.rules.map entry := (hashSort_perm _ _ _).mem_iff.1 he
    obtain ⟨nr, hnr, rfl⟩ := mem_map.1 he
    exact ⟨nr.2, hnr, rfl⟩
  settled _ _ _ ht := absurd ht (not_mem_nil)
  added_ok _ he := absurd he (not_mem_nil)
  expanded _ ht := absurd ht (not_mem_nil)

/-- **One topic further**: its own entry may have been settled, and an entry for it may have been added. -/
theorem advance (h : Completing policy p done own added) (ht : t.name ∉ done.map name)
    (hnames : own'.map RuleEntry.topic = own.map RuleEntry.topic) (hother : ∀ e ∈ own', e.topic ≠ t.name → e ∈ own)
    (hthis : ∀ e ∈ own', e.topic = t.name → Leads '*' p.Has t.name t.name →
      ∃ r, (t.name, r) ∈ p.rules ∧ e.u = r.settle policy.tags t.coarseGrained)
    (hnew : ∀ e ∈ new, e.topic = t.name ∧ ¬p.Has t.name ∧ (∃ r, p.Best t.name r ∧ Agrees policy.tags e.u r) ∧
      ('*' ∈ t.name → (e.u.isFine = true ↔ policy.FineGrained t.name)))
    (hreach : '*' ∈ t.name → ¬p.Has t.name → (new ≠ [] ↔ ∃ r, p.Best t.name r ∧ r.Reaches)) :
    Completing policy p (done ++ [t]) own' (added ++ new) where
  names := hnames.trans h.names
  waiting e he hd := by
    rw [map_append, mem_append, not_or] at hd
    exact h.waiting e (hother e he fun hc => hd.2 (mem_singleton.2 hc)) hd.1
  settled e he t' ht' hname hl := by
    rcases mem_append.1 ht' with ht' | ht'
    · have hne : e.topic ≠ t.name := fun hc => ht (hc ▸ hname ▸ mem_map_of_mem ht')
      exact h.settled e (hother e he hne) t' ht' hname hl
    · obtain rfl := mem_singleton.1 ht'
      exact hthis e he hname hl
  added_ok e he := by
    rw [map_append, mem_append]
    rcases mem_append.1 he with he | he
    · exact (h.added_ok e he).imp_left .inl
    · obtain ⟨hname, hrest⟩ := hnew e he
      rw [hname]
      exact ⟨.inr (mem_singleton.2 rfl), hrest⟩
  expanded t' ht' hw hn := by
    rw [map_append, mem_append]
    rcases mem_append.1 ht' with ht' | ht'
    · rw [← h.expanded t' ht' hw hn]
      refine or_iff_left fun hmem => ?_
      obtain ⟨e, he, hname⟩ := mem_map.1 hmem
      exact ht ((hnew e he).1 ▸ hname ▸ mem_map_of_mem ht')
    obtain rfl := mem_singleton.1 ht'
    rw [← hreach hw hn]
    constructor
    · rintro (hmem | hmem)
      · obtain ⟨e, he, hname⟩ := mem_map.1 hmem
        exact absurd (hname ▸ (h.added_ok e he).1) ht
      · exact fun hnil => by simp [hnil] at hmem
    · intro hne
      obtain ⟨e, he⟩ := exists_mem_of_ne_nil _ hne
      exact .inr ((hnew e he).1 ▸ mem_map_of_mem he)

/-! ## Looking a topic up -/

section
variable (h : Completing policy p done own added)
include h

theorem has_iff (n : Name) : p.Has n ↔ n ∈ own.map RuleEntry.topic := by
  have hp : (p.desc.sortRules.ruleEntries.map RuleEntry.topic).Perm (p.desc.ruleEntries.map RuleEntry.topic) :=
    (hashSort_perm _ _ _).map _
  rw [h.names, hp.mem_iff, Participant.desc, map_map]
  rfl

theorem sorted : own.Pairwise fun a b => Longer a.topic b.topic := by
  have hs : (own.map RuleEntry.topic).Pairwise Longer := by
    rw [h.names]
    exact pairwise_map.2 (hashSort_longest_first RuleEntry.topic p.desc.ruleEntries)
  exact pairwise_map.1 hs

theorem leads_of_find
    (hf : own.find? (isMatch t) = some m) : Leads '*' p.Has m.topic t := by
  have hm := mem_of_find?_eq_some hf
  refine ⟨(h.has_iff _).2 (mem_map_of_mem hm), isMatch_iff.1 (find?_some hf), fun v hv hc => ?_⟩
  obtain ⟨e, he, rfl⟩ := mem_map.1 ((h.has_iff v).1 hv)
  rcases find?_sorted h.sorted hf e he (isMatch_iff.2 hc) with rfl | hl
  · exact .inr ⟨rfl, le_rfl⟩
  · exact hl

theorem not_covers_of_find
    (hf : own.find? (isMatch t) = none) (hv : p.Has v) :
    ¬Covers '*' v t := by
  obtain ⟨e, he, rfl⟩ := mem_map.1 ((h.has_iff v).1 hv)
  exact fun hc => absurd (isMatch_iff.2 hc) (find?_eq_none.1 hf e he)

/-- **What was added never decides a lookup during completion**: the pattern that it comes from stands before it. -/
theorem findMatch_eq (ht : t ∉ done.map name)
    (htr : ∀ d ∈ done, Trailing '*' d.name) :
    findMatch (own ++ added) t = (own.find? (isMatch t)).map fun e => (e, e.topic != t) := by
  unfold findMatch
  rw [find?_append]
  cases hf : own.find? (isMatch t) with
  | some m => rfl
  | none =>
    have hadded : added.find? (isMatch t) = none := by
      refine find?_eq_none.2 fun e he hc => ?_
      obtain ⟨hdone, _, ⟨r, ⟨w, hw, _⟩, _⟩, _⟩ := h.added_ok e he
      obtain ⟨d, hd, hname⟩ := mem_map.1 hdone
      rcases isMatch_iff.1 hc with he | ⟨hwild, hstem⟩
      · exact ht (he ▸ hdone)
      rcases hw.covers with heq | hcov
      · exact h.not_covers_of_find hf hw.1 (heq ▸ .inr ⟨hwild, hstem⟩)
      · exact h.not_covers_of_find hf hw.1
          (.inr ⟨hcov.1, Covers.trans_wild hwild (hname ▸ htr d hd) (.inr hcov) hstem⟩)
    rw [hadded]
    rfl

theorem own_agrees (he : e ∈ own)
    (hl : Leads '*' p.Has e.topic e.topic) : ∃ r, (e.topic, r) ∈ p.rules ∧ Agrees policy.tags e.u r := by
  by_cases hd : e.topic ∈ done.map name
  · obtain ⟨t, ht, hname⟩ := mem_map.1 hd
    obtain ⟨r, hr, hu⟩ := h.settled e he t ht hname.symm (hname ▸ hl)
    exact ⟨r, hname ▸ hr, hu ▸ settle_agrees _ _ r⟩
  · obtain ⟨r, hr, hu⟩ := h.waiting e he hd
    exact ⟨r, hr, hu ▸ toU_agrees _ r⟩

end

end Completing

/-! ## One topic -/

/-- A pattern of the participant comes before its own rule for the name, and no fine grained rule concerns the pattern:
it is then expanded as a coarse grained rule to a topic that has one. -/
def Blocked (policy : Policy) (p : Participant) (t : Name) : Prop :=
  p.Has t ∧ ∃ m, Leads '*' p.Has m t ∧ m ≠ t ∧ ¬policy.FineGrained m

section

variable {policy : Policy} {done rest : List TopicDesc} {t : TopicDesc}

section
variable (hs : policy.completedTopics = done ++ t :: rest)
include hs

theorem not_done : t.name ∉ done.map name := by
  have hn := completedTopics_nodup policy
  rw [hs, map_append] at hn
  exact fun hm => (nodup_append.1 hn).2.2 _ hm _ (mem_cons_self ..) rfl

theorem completedTopics_sorted : (∀ d ∈ done, Longer d.name t.name) ∧ ∀ d ∈ rest, Longer t.name d.name := by
  have h := hashSort_longest_first name (completeTopics policy.load.topics)
  have h : (done ++ t :: rest).Pairwise fun a b => Longer a.name b.name := hs ▸ h
  obtain ⟨_, h2, h3⟩ := pairwise_append.1 h
  exact ⟨fun d hd => h3 d hd t (mem_cons_self ..), (pairwise_cons.1 h2).1⟩

theorem done_of_longer (hn : policy.Lists n)
    (hl : Longer n t.name) (hne : n ≠ t.name) : ∃ d ∈ done, d.name = n := by
  obtain ⟨d, hd, rfl⟩ := mem_map.1 ((mem_completedTopics policy n).2 hn)
  rw [hs] at hd
  rcases mem_append.1 hd with hd | hd
  · exact ⟨d, hd, rfl⟩
  · rcases mem_cons.1 hd with rfl | hd
    · exact absurd rfl hne
    · exact absurd (hl.antisymm ((completedTopics_sorted hs).2 d hd)) hne

theorem lists_of_done (hd : d ∈ done) : policy.Lists d.name := by
  refine (mem_completedTopics policy _).1 (mem_map_of_mem ?_)
  rw [hs]
  exact mem_append_left _ hd

end

theorem fineGrained_iff (hd : d ∈ policy.completedTopics) (hw : '*' ∈ d.name) :
    policy.FineGrained d.name ↔ d.coarseGrained = false := by
  rw [← fineIn_completedTopics policy hw ((mem_completedTopics policy _).1 (mem_map_of_mem hd))]
  refine ⟨fun ⟨d', hd', hname, hc⟩ => ?_, fun hc => ⟨d, hd, rfl, hc⟩⟩
  rw [← inj_on_of_nodup_map (completedTopics_nodup policy) hd' hd hname]
  exact hc

theorem Participant.Best.fineGrained (hp : p ∈ policy.participants) : p.Best n (.fine sections) → policy.FineGrained n
  | ⟨w, hw, hr⟩ => ⟨w, ⟨p, hp, sections, hr⟩, hw.covers⟩

end

namespace Completing

variable {policy : Policy} {p : Participant} {done rest : List TopicDesc} {own added : List RuleEntry} {t : TopicDesc}

section
variable (h : Completing policy p done own added)
include h

theorem own_topic_unique (he : e ∈ own) (he' : e' ∈ own)
    (hname : e.topic = e'.topic) : e = e' := by
  have hn : (own.map RuleEntry.topic).Nodup := by
    have hp : (p.desc.sortRules.ruleEntries.map RuleEntry.topic).Perm (p.desc.ruleEntries.map RuleEntry.topic) :=
      (hashSort_perm _ _ _).map _
    rw [h.names, hp.nodup_iff, Participant.desc, map_map]
    exact p.nodup
  exact inj_on_of_nodup_map hn he he' hname

theorem step_exact (ht : t.name ∉ done.map name)
    (hm : m ∈ own) (hname : m.topic = t.name) (hfind : findMatch (own ++ added) t.name = some (m, false)) :
    ∃ own', completeRule policy.tags ⟨p.tag, own ++ added⟩ t = .ok ⟨p.tag, own' ++ added⟩ ∧
      Completing policy p (done ++ [t]) own' added := by
  obtain ⟨r, hr, hu⟩ := h.waiting m hm (hname ▸ ht)
  rw [hname] at hr
  have hhas : p.Has t.name := has_of_mem hr
  have hadded : t.name ∉ added.map RuleEntry.topic := fun hmem => by
    obtain ⟨e, he, hc⟩ := mem_map.1 hmem
    exact (h.added_ok e he).2.1 (hc ▸ hhas)
  refine ⟨own.map (update t.name fun _ => r.settle policy.tags t.coarseGrained), ?_, ?_⟩
  · have hsame : r.settle policy.tags t.coarseGrained = r.toU →
        own.map (update t.name fun _ => r.settle policy.tags t.coarseGrained) = own := by
      intro hset
      have hid : ∀ e ∈ own, update t.name (fun _ => r.settle policy.tags t.coarseGrained) e = e := by
        intro e he
        unfold update
        split
        · next hc => rw [h.own_topic_unique he hm (hc.trans hname.symm), hset, ← hu]
        · rfl
      rw [map_congr_left hid, map_id']
    obtain ⟨mt, mu⟩ := m
    obtain rfl : mu = r.toU := hu
    cases r with
    | coarse perms =>
      rw [completeRule_coarse_exact hfind]
      cases hc : t.coarseGrained with
      | true =>
        rw [hc] at hsame
        rw [hsame rfl]
        rfl
      | false =>
        rw [map_append, map_update_of_not_mem hadded]
        rfl
    | fine sections =>
      obtain ⟨read, write, hfine, _⟩ := fine_toU sections
      rw [hfine] at hfind
      rw [completeRule_fine hfind, hsame rfl]
      rfl
  rw [← append_nil added]
  refine h.advance ht (map_update_topics ..) (fun e he hne => ?_) (fun e he hc _ => ⟨r, hr, ?_⟩) (by simp)
    fun _ hn => absurd hhas hn
  · obtain ⟨e', he', rfl⟩ := mem_map.1 he
    rw [update_topic] at hne
    rw [update, if_neg hne]
    exact he'
  · obtain ⟨e', he', rfl⟩ := mem_map.1 he
    rw [update_topic] at hc
    rw [update, if_pos hc]

theorem step_none (ht : t.name ∉ done.map name)
    (hf : own.find? (isMatch t.name) = none) : Completing policy p (done ++ [t]) own added := by
  rw [← append_nil added]
  refine h.advance ht rfl (fun e he _ => he) (fun e he hc _ => ?_) (by simp) fun _ _ => ?_
  · exact absurd (.inl hc) (h.not_covers_of_find hf ((h.has_iff _).2 (mem_map_of_mem he)))
  · refine ⟨fun hne => absurd rfl hne, fun ⟨r, ⟨w, hw, _⟩, _⟩ => ?_⟩
    exact absurd hw.covers (h.not_covers_of_find hf hw.1)

theorem step_old (hp : p ∈ policy.participants)
    (hs : policy.completedTopics = done ++ t :: rest) (hm : m ∈ own)
    (hl : Leads '*' p.Has m.topic t.name) (hne : m.topic ≠ t.name) (hhas : p.Has t.name)
    (hfind : findMatch (own ++ added) t.name = some (m, true)) :
    (¬policy.FineGrained m.topic ∧
      completeRule policy.tags ⟨p.tag, own ++ added⟩ t = .error .einval) ∨
    (policy.FineGrained m.topic ∧ ∃ own',
      completeRule policy.tags ⟨p.tag, own ++ added⟩ t = .ok ⟨p.tag, own' ++ added⟩ ∧
      Completing policy p (done ++ [t]) own' added) := by
  have hw := (hl.wild hne).1
  -- the pattern has been looked at before, so its entry has the kind of its topic
  obtain ⟨d, hd, hname⟩ := done_of_longer hs (lists_of_has hp hl.1) (hl.2.2 _ hhas (.inl rfl)) hne
  have hself : Leads '*' p.Has d.name d.name := hname ▸ leads_self (trailing_of_has p) hl.1 hw
  obtain ⟨r, hr, hu⟩ := h.settled m hm d hd hname.symm hself
  have hkind := fineGrained_iff (hs ▸ mem_append_left _ hd) (hname ▸ hw)
  have hmem : t.name ∈ (own ++ added).map RuleEntry.topic := by
    rw [map_append]
    exact mem_append_left _ ((h.has_iff _).1 hhas)
  have hadded : t.name ∉ added.map RuleEntry.topic := fun hmem => by
    obtain ⟨e, he, hc⟩ := mem_map.1 hmem
    exact (h.added_ok e he).2.1 (hc ▸ hhas)
  obtain ⟨mt, mu⟩ := m
  obtain rfl : mu = _ := hu
  obtain rfl : d.name = mt := hname
  cases hc : d.coarseGrained with
  | true =>
    have hcoarse : ¬policy.FineGrained d.name := fun hf => by simp [hkind.1 hf] at hc
    cases r with
    | fine sections => exact absurd ⟨d.name, ⟨p, hp, sections, hr⟩, .inl rfl⟩ hcoarse
    | coarse perms =>
      rw [hc] at hfind
      exact .inl ⟨hcoarse, completeRule_coarse_old hfind hmem⟩
  | false =>
    refine .inr ⟨hkind.2 hc, ?_⟩
    obtain ⟨read, write, hfine⟩ : ∃ read write, r.settle policy.tags d.coarseGrained = .fine read write := by
      rw [hc]
      cases r with
      | coarse perms => exact ⟨_, _, rfl⟩
      | fine sections =>
        obtain ⟨read, write, hfine, _⟩ := fine_toU sections
        exact ⟨read, write, hfine⟩
    rw [hfine] at hfind
    obtain ⟨f, hf⟩ := @sections_of_mem p.tag _ _ hmem (sectionsOf read write)
    refine ⟨own.map (update t.name f), ?_, ?_⟩
    · rw [completeRule_fine hfind, if_pos rfl, expandFine_eq, hf, map_append, map_update_of_not_mem hadded]
    rw [← append_nil added]
    refine h.advance (not_done hs) (map_update_topics ..) (fun e he hn => ?_) (fun e he _ hself => ?_) (by simp)
      fun _ hn => absurd hhas hn
    · obtain ⟨e', he', rfl⟩ := mem_map.1 he
      rw [update_topic] at hn
      rw [update, if_neg hn]
      exact he'
    · exact absurd (hl.unique hself) hne

end

theorem reaches_iff {read write : List Name}
    (hmem : ∀ d user, user ∈ RuleU.list read write d ↔ (d, user) ∈ sections ∧ isUser user = true) :
    sectionsOf read write ≠ [] ↔ (fine sections).Reaches := by
  constructor
  · intro hne
    obtain ⟨⟨d, user⟩, hdu⟩ := exists_mem_of_ne_nil _ hne
    have h := (hmem d user).1 (mem_sectionsOf.1 hdu)
    exact ⟨(d, user), h.1, h.2⟩
  · rintro ⟨⟨d, user⟩, hdu, hu⟩ hnil
    have h := mem_sectionsOf.2 ((hmem d user).2 ⟨hdu, hu⟩)
    rw [hnil] at h
    exact absurd h (not_mem_nil)

section
variable (h : Completing policy p done own added)
include h

/-- The entry of a pattern for a pattern is still as it was loaded, since it is shorter. -/
theorem unsettled (hs : policy.completedTopics = done ++ t :: rest) (hm : m ∈ own)
    (hl : Leads '*' p.Has m.topic t.name) (hne : m.topic ≠ t.name) (hr : (m.topic, r) ∈ p.rules) (htw : '*' ∈ t.name) :
    m.u = r.toU := by
  have hlt := length_lt_of_covers (hl.wild hne).1 (trailing_of_has p _ hl.1) htw
    (trailing_of_lists ((mem_completedTopics policy _).1 (mem_map_of_mem (hs ▸ by simp)))) hne hl.2.1
  obtain ⟨r', hr', hu⟩ := h.waiting m hm fun hd => by
    obtain ⟨d, hd, hname⟩ := mem_map.1 hd
    have hle := ((completedTopics_sorted hs).1 d hd).length_le
    rw [hname] at hle
    omega
  rw [hu, rule_unique hr hr']

theorem step_new (hp : p ∈ policy.participants) (hs : policy.completedTopics = done ++ t :: rest)
    (hm : m ∈ own) (hl : Leads '*' p.Has m.topic t.name) (hhas : ¬p.Has t.name)
    (hfind : findMatch (own ++ added) t.name = some (m, true)) :
    ∃ new, completeRule policy.tags ⟨p.tag, own ++ added⟩ t = .ok ⟨p.tag, own ++ (added ++ new)⟩ ∧
      Completing policy p (done ++ [t]) own (added ++ new) := by
  have hne : m.topic ≠ t.name := fun hc => hhas (hc ▸ hl.1)
  obtain ⟨r, hr, hag⟩ := h.own_agrees hm (leads_self (trailing_of_has p) hl.1 (hl.wild hne).1)
  have hbest : p.Best t.name r := ⟨m.topic, hl.specific (trailing_of_has p) hhas, hr⟩
  have hmem : t.name ∉ (own ++ added).map RuleEntry.topic := by
    rw [map_append, mem_append]
    rintro (hmem | hmem)
    · exact hhas ((h.has_iff _).2 hmem)
    · obtain ⟨e, he, hc⟩ := mem_map.1 hmem
      exact not_done hs (hc ▸ (h.added_ok e he).1)
  have hwait := h.unsettled hs hm hl hne hr
  have finish : ∀ new : List RuleEntry,
      (∀ e ∈ new, e.topic = t.name ∧ Agrees policy.tags e.u r ∧
        ('*' ∈ t.name → (e.u.isFine = true ↔ policy.FineGrained t.name))) → ('*' ∈ t.name → (new ≠ [] ↔ r.Reaches)) →
      Completing policy p (done ++ [t]) own (added ++ new) := by
    intro new hnew hreach
    refine h.advance (not_done hs) rfl (fun e he _ => he) (fun e he hc _ => ?_)
      (fun e he => ⟨(hnew e he).1, hhas, ⟨r, hbest, (hnew e he).2.1⟩, (hnew e he).2.2⟩) fun htw _ => ?_
    · exact absurd ((h.has_iff _).2 (hc ▸ mem_map_of_mem he)) hhas
    · rw [hreach htw]
      exact ⟨fun hre => ⟨r, hbest, hre⟩, fun ⟨r', hb, hre⟩ => hb.unique hbest ▸ hre⟩
  obtain ⟨mt, mu⟩ := m
  match mu with
  | .coarse none => exact hag.elim
  | .coarse (some perms) =>
    refine ⟨[⟨t.name, (coarse perms).settle policy.tags t.coarseGrained⟩], ?_, finish _ ?_ ?_⟩
    · rw [completeRule_coarse_new hfind hmem, append_assoc]
    · intro e he
      obtain rfl := mem_singleton.1 he
      obtain rfl : r = coarse perms := hag
      refine ⟨rfl, settle_agrees policy.tags t.coarseGrained (coarse perms), fun htw => ?_⟩
      rw [fineGrained_iff (hs ▸ by simp) htw, settle_isFine]
      simp [Rule.isFine]
    · intro htw
      have hu := hwait htw
      cases r with
      | coarse perms' => exact ⟨fun _ => trivial, fun _ => cons_ne_nil _ _⟩
      | fine sections =>
        obtain ⟨_, _, hfine, _⟩ := fine_toU sections
        exact absurd (hu.trans hfine) nofun
  | .fine read write =>
    have hsec : ∀ d user, user ∈ RuleU.list read write d ↔ r.grants policy.tags d user := hag
    have hreach : '*' ∈ t.name → (sectionsOf read write ≠ [] ↔ r.Reaches) := by
      intro htw
      have hu := hwait htw
      cases r with
      | coarse perms' => exact absurd hu nofun
      | fine sections => exact reaches_iff hsec
    cases hsecs : sectionsOf read write with
    | nil =>
      refine ⟨[], ?_, finish [] (by simp) (by simpa [hsecs] using hreach)⟩
      rw [completeRule_fine hfind, expandFine_eq, hsecs, append_nil]
      rfl
    | cons dn sections' =>
      refine ⟨[⟨t.name, (fine (dn :: sections')).toU⟩], ?_, finish _ ?_ (by simpa [hsecs] using hreach)⟩
      · rw [completeRule_fine hfind, if_pos rfl, expandFine_eq, hsecs, sections_of_not_mem hmem, append_assoc]
      · intro e he
        obtain rfl := mem_singleton.1 he
        obtain ⟨read', write', hU, hmem'⟩ := fine_toU (dn :: sections')
        rw [hU]
        refine ⟨rfl, fun d user => ?_, fun htw => iff_of_true rfl ?_⟩
        · rw [hmem', ← hsecs, mem_sectionsOf, hsec]
          exact and_iff_left_of_imp isUser_of_grants
        · have hu := hwait htw
          cases r with
          | coarse perms' => exact absurd hu nofun
          | fine sections => exact hbest.fineGrained hp

/-- **One topic of the walk**: it is refused exactly if the topic is blocked, and otherwise the invariant is kept. -/
theorem step (hp : p ∈ policy.participants)
    (hs : policy.completedTopics = done ++ t :: rest) :
    (Blocked policy p t.name ∧ completeRule policy.tags ⟨p.tag, own ++ added⟩ t = .error .einval) ∨
    (¬Blocked policy p t.name ∧ ∃ own' added',
      completeRule policy.tags ⟨p.tag, own ++ added⟩ t = .ok ⟨p.tag, own' ++ added'⟩ ∧
      Completing policy p (done ++ [t]) own' added') := by
  have ht := not_done hs
  have hfind := h.findMatch_eq ht fun d hd => trailing_of_lists (lists_of_done hs hd)
  cases hf : own.find? (isMatch t.name) with
  | none =>
    rw [hf] at hfind
    refine .inr ⟨fun hb => ?_, own, added, completeRule_none hfind, h.step_none ht hf⟩
    exact h.not_covers_of_find hf hb.1 (.inl rfl)
  | some m =>
    rw [hf] at hfind
    have hm := mem_of_find?_eq_some hf
    have hl := h.leads_of_find hf
    by_cases hname : m.topic = t.name
    · have hfind : findMatch (own ++ added) t.name = some (m, false) := by simpa [hname] using hfind
      obtain ⟨own', hok, hc⟩ := h.step_exact ht hm hname hfind
      refine .inr ⟨fun hb => ?_, own', added, hok, hc⟩
      obtain ⟨_, m', hl', hne, _⟩ := hb
      exact hne ((hl'.unique hl).trans hname)
    have hfind : findMatch (own ++ added) t.name = some (m, true) := by simpa [bne_iff_ne.2 hname] using hfind
    by_cases hhas : p.Has t.name
    · rcases h.step_old hp hs hm hl hname hhas hfind with ⟨hfg, herr⟩ | ⟨hfg, own', hok, hc⟩
      · exact .inl ⟨⟨hhas, m.topic, hl, hname, hfg⟩, herr⟩
      · refine .inr ⟨fun hb => ?_, own', added, hok, hc⟩
        obtain ⟨_, m', hl', _, hfg'⟩ := hb
        exact hfg' (hl'.unique hl ▸ hfg)
    · obtain ⟨new, hok, hc⟩ := h.step_new hp hs hm hl hhas hfind
      exact .inr ⟨fun hb => hhas hb.1, own, added ++ new, hok, hc⟩

/-- **The walk over all topics**: it is refused exactly if a topic is blocked. -/
theorem run (hp : p ∈ policy.participants)
    (hs : policy.completedTopics = done ++ rest) :
    ((∃ t ∈ rest, Blocked policy p t.name) ∧
      rest.foldlM (completeRule policy.tags) ⟨p.tag, own ++ added⟩ = .error .einval) ∨
    ((∀ t ∈ rest, ¬Blocked policy p t.name) ∧ ∃ own' added',
      rest.foldlM (completeRule policy.tags) ⟨p.tag, own ++ added⟩ = .ok ⟨p.tag, own' ++ added'⟩ ∧
      Completing policy p policy.completedTopics own' added') := by
  induction rest generalizing done own added with
  | nil =>
    rw [append_nil] at hs
    exact .inr ⟨by simp, own, added, rfl, hs ▸ h⟩
  | cons t rest ih =>
    rw [foldlM_cons]
    rcases h.step hp hs with ⟨hb, herr⟩ | ⟨hb, own', added', hok, hc⟩
    · rw [herr]
      exact .inl ⟨⟨t, mem_cons_self .., hb⟩, rfl⟩
    rw [hok]
    rcases ih hc (by rw [hs, append_assoc]; rfl) with ⟨⟨t', ht', hb'⟩, herr⟩ | ⟨hall, hres⟩
    · exact .inl ⟨⟨t', mem_cons_of_mem _ ht', hb'⟩, herr⟩
    refine .inr ⟨fun t' ht' => ?_, hres⟩
    rcases mem_cons.1 ht' with rfl | ht'
    · exact hb
    · exact hall t' ht'

end

end Completing

/-! ## The whole policy -/

section
variable (policy : Policy)

def Completed (p : Participant) (part : ParticipantDesc) : Prop :=
  part.tag = p.tag ∧ ∃ own added, part = sortRules ⟨p.tag, own ++ added⟩ ∧
    Completing policy p policy.completedTopics own added

theorem mapM_ok {α β : Type} {f : α → Except Fail β} {Q : α → β → Prop} {l : List α}
    (h : ∀ a ∈ l, ∃ b, f a = .ok b ∧ Q a b) : ∃ bs, l.mapM f = .ok bs ∧ List.Forall₂ Q l bs := by
  induction l with
  | nil => exact ⟨[], rfl, .nil⟩
  | cons a l ih =>
    obtain ⟨b, hb, hq⟩ := h a (mem_cons_self ..)
    obtain ⟨bs, hbs, hqs⟩ := ih (forall_mem_cons.1 h).2
    refine ⟨b :: bs, ?_, .cons hq hqs⟩
    rw [mapM_cons, hb, hbs]
    rfl

theorem forall₂_of_mapM {α β : Type} {f : α → Except Fail β} {l : List α} {bs : List β} (h : l.mapM f = .ok bs) :
    List.Forall₂ (fun a b => f a = .ok b) l bs := by
  induction l generalizing bs with
  | nil =>
    cases h
    exact .nil
  | cons a l ih =>
    rw [mapM_cons] at h
    cases hb : f a with
    | error e =>
      rw [hb] at h
      exact absurd h nofun
    | ok b =>
      rw [hb] at h
      cases hbs : l.mapM f with
      | error e =>
        rw [hbs] at h
        exact absurd h nofun
      | ok bs' =>
        rw [hbs] at h
        cases h
        exact .cons hb (ih hbs)

theorem exists_of_forall₂ {α β : Type} {R : α → β → Prop} {l : List α} {bs : List β} (h : List.Forall₂ R l bs) {a : α}
    (ha : a ∈ l) : ∃ b ∈ bs, R a b := by
  induction h with
  | nil => exact absurd ha (not_mem_nil)
  | cons hab _ ih =>
    rcases mem_cons.1 ha with rfl | ha
    · exact ⟨_, mem_cons_self .., hab⟩
    · obtain ⟨b, hb, hr⟩ := ih ha
      exact ⟨b, mem_cons_of_mem _ hb, hr⟩

theorem completeRules_cases (hp : p ∈ policy.participants) :
    ((∃ t, Blocked policy p t) ∧ p.desc.completeRules policy.tags policy.completedTopics = .error .einval) ∨
    ((∀ t, ¬Blocked policy p t) ∧ ∃ part, p.desc.completeRules policy.tags policy.completedTopics = .ok part ∧
      Completed policy p part.sortRules) := by
  have hstart : sortRules p.desc = ⟨p.tag, p.desc.sortRules.ruleEntries ++ []⟩ := by
    rw [append_nil]
    rfl
  unfold completeRules
  rw [hstart]
  rcases (Completing.start policy p).run hp (nil_append _).symm with ⟨⟨t, _, hb⟩, herr⟩ | ⟨hall, own, added, hok, hc⟩
  · exact .inl ⟨⟨t.name, hb⟩, herr⟩
  · refine .inr ⟨fun t hb => ?_, _, hok, rfl, own, added, rfl, hc⟩
    obtain ⟨d, hd, rfl⟩ := mem_map.1 ((mem_completedTopics policy t).2 (lists_of_has hp hb.1))
    exact hall d hd hb

theorem load_tags : policy.load.participants.map tag = policy.tags := by
  rw [load_participants, map_map]
  rfl

def Policy.complete (p : Participant) : Except Fail ParticipantDesc := do
  return (← p.desc.completeRules policy.tags policy.completedTopics).sortRules

theorem finalize_eq :
    policy.load.finalize = (policy.participants.mapM policy.complete).map (Cache.mk policy.completedTopics) := by
  unfold Cache.finalize
  rw [load_tags, load_participants]
  dsimp only
  rw [mapM_map]
  show (policy.participants.mapM policy.complete >>= fun parts => Except.ok (Cache.mk policy.completedTopics parts)) = _
  cases policy.participants.mapM policy.complete <;> rfl

end

theorem finalize_ok {policy : Policy} (h : policy.load.finalize = .ok cache) :
    cache.topics = policy.completedTopics ∧
      List.Forall₂ (fun p part => policy.complete p = .ok part) policy.participants cache.participants := by
  rw [finalize_eq] at h
  cases hm : policy.participants.mapM policy.complete with
  | error e =>
    rw [hm] at h
    exact absurd h nofun
  | ok parts =>
    rw [hm] at h
    cases h
    exact ⟨rfl, forall₂_of_mapM hm⟩

/-- **`finalize` succeeds exactly if no topic is blocked**, and every participant's rules are then completed. -/
theorem finalize_cases (policy : Policy) :
    ((∃ p ∈ policy.participants, ∃ t, Blocked policy p t) ∧ ∀ c, policy.load.finalize ≠ .ok c) ∨
    ((∀ p ∈ policy.participants, ∀ t, ¬Blocked policy p t) ∧ ∃ parts,
      policy.load.finalize = .ok ⟨policy.completedTopics, parts⟩ ∧
      List.Forall₂ (Completed policy) policy.participants parts) := by
  by_cases hb : ∃ p ∈ policy.participants, ∃ t, Blocked policy p t
  · refine .inl ⟨hb, fun c hc => ?_⟩
    obtain ⟨p, hp, t, hblocked⟩ := hb
    obtain ⟨part, _, hpart⟩ := exists_of_forall₂ (finalize_ok hc).2 hp
    rcases completeRules_cases policy hp with ⟨_, herr⟩ | ⟨hnone, _⟩
    · rw [Policy.complete, herr] at hpart
      exact absurd hpart nofun
    · exact hnone t hblocked
  have hall : ∀ p ∈ policy.participants, ∀ t, ¬Blocked policy p t := fun p hp t h => hb ⟨p, hp, t, h⟩
  have heach : ∀ p ∈ policy.participants, ∃ part, policy.complete p = .ok part ∧ Completed policy p part := by
    intro p hp
    rcases completeRules_cases policy hp with ⟨⟨t, ht⟩, _⟩ | ⟨_, part, hok, hc⟩
    · exact absurd ht (hall p hp t)
    · refine ⟨part.sortRules, ?_, hc⟩
      rw [Policy.complete, hok]
      rfl
  obtain ⟨parts, hparts, hq⟩ := mapM_ok heach
  refine .inr ⟨hall, parts, ?_, hq⟩
  rw [finalize_eq, hparts]
  rfl

end Qeo.Security
