import QeoCore.PolicyComplete
/-!
# PolicyDecide — which rule decides

Names are sorted by length with the wildcard counted in, so a pattern may come before a name that it covers: the pattern
then decides, and when it has to be expanded to that name, the policy may be refused.
-/
namespace Qeo.Security

open List Option RuleEntry RuleU Wildcard

/-! ## Asking about one participant and one topic -/

section

variable {tag t : Name} {sel : Perms}

theorem reportParticipants_skip {l : List ParticipantDesc} (h : ∀ part ∈ l, part.tag ≠ tag) (mask : Perms)
    (rest : List ParticipantDesc) :
    reportParticipants (some tag) (some t) sel mask (l ++ rest) =
      reportParticipants (some tag) (some t) sel mask rest := by
  induction l with
  | nil => rfl
  | cons part l ih =>
    have hne : (some tag).all (· == part.tag) = false := by simpa using Ne.symm (h part (mem_cons_self ..))
    rw [cons_append, reportParticipants, reportParticipant, hne]
    show (do return [] ++ (← reportParticipants _ _ _ mask (l ++ rest))) = _
    rw [ih (forall_mem_cons.1 h).2]
    cases reportParticipants (some tag) (some t) sel mask rest <;> rfl

theorem getTopicRules_one {c : Cache} (hn : (c.participants.map ParticipantDesc.tag).Nodup) {part : ParticipantDesc}
    (hp : part ∈ c.participants) :
    c.getTopicRules (some part.tag) (some t) sel = match findMatch part.ruleEntries t with
      | some (e, _) => (reportEntry part.tag t sel ⟨false, false⟩ e.u).map Prod.fst
      | none => .ok [] := by
  obtain ⟨l1, l2, hl⟩ := append_of_mem hp
  rw [hl, map_append, map_cons, nodup_append, nodup_cons] at hn
  have h1 : ∀ x ∈ l1, x.tag ≠ part.tag := fun x hx => hn.2.2 x.tag (mem_map_of_mem hx) part.tag (mem_cons_self ..)
  have h2 : ∀ x ∈ l2, x.tag ≠ part.tag := fun x hx he => hn.2.1.1 (he ▸ mem_map_of_mem hx)
  have hall : (some part.tag).all (· == part.tag) = true := by simp
  have hrest : ∀ mask, reportParticipants (some part.tag) (some t) sel mask l2 = .ok [] := fun mask => by
    simpa [reportParticipants] using @reportParticipants_skip part.tag t sel l2 h2 mask []
  rw [Cache.getTopicRules, hl, reportParticipants_skip h1, reportParticipants, reportParticipant, hall]
  cases findMatch part.ruleEntries t with
  | none =>
    show (do return [] ++ (← reportParticipants _ _ _ _ l2)) = _
    rw [hrest]
    rfl
  | some e =>
    simp only
    cases reportEntry part.tag t sel ⟨false, false⟩ e.1.u with
    | error err => rfl
    | ok om =>
      show (do return om.1 ++ (← reportParticipants _ _ _ om.2 l2)) = _
      rw [hrest]
      simp [Except.map]

end

variable {u : RuleU} {r r' : Rule}

/-- `selector_mask` as far as the permissions go. -/
def Perms.inter (perms sel : Perms) : Perms := ⟨perms.read && sel.read, perms.write && sel.write⟩

def RuleU.report (tag t : Name) (sel : Perms) : RuleU → Option Report
  | coarse none => none
  | coarse (some perms) =>
    if perms.inter sel = ⟨false, false⟩ then none else some ⟨tag, t, perms.inter sel, none⟩
  | fine read write => if sel = ⟨false, false⟩ then none else some ⟨tag, t, sel, some (read, write)⟩

theorem reportEntry_eq {tags : List Name} {tag t : Name} {sel : Perms} (h : Agrees tags u r) :
    (reportEntry tag t sel ⟨false, false⟩ u).map Prod.fst = .ok (u.report tag t sel).toList ∧
      ∀ x ∈ u.report tag t sel, x.participantTag = tag ∧ x.topicName = t := by
  match u with
  | .coarse none => exact h.elim
  | .coarse (some perms) =>
    have he : reportEntry tag t sel ⟨false, false⟩ (.coarse (some perms)) =
        .ok (if perms.inter sel = ⟨false, false⟩ then [] else [⟨tag, t, perms.inter sel, none⟩], perms.inter sel) := by
      simp only [reportEntry, Bool.false_or]
      rfl
    rw [he, RuleU.report]
    by_cases hm : perms.inter sel = ⟨false, false⟩ <;> simp [Except.map, hm]
  | .fine read write =>
    by_cases hm : sel = ⟨false, false⟩ <;> simp [RuleU.report, reportEntry, Except.map, hm]

/-- What is reported carries the permissions of the rule: the mask of a coarse grained one, as far as it is asked for,
or the users that the rule grants. -/
def Carries (tags : List Name) (sel : Perms) (r : Rule) : Option Report → Prop
  | none => sel = ⟨false, false⟩ ∨ ∃ perms, r = .coarse perms ∧ perms.inter sel = ⟨false, false⟩
  | some ⟨_, _, mask, none⟩ => ∃ perms, r = .coarse perms ∧ mask = perms.inter sel
  | some ⟨_, _, mask, some (read, write)⟩ =>
    mask = sel ∧ ∀ d user, user ∈ list read write d ↔ r.grants tags d user

theorem Agrees.carries (h : Agrees tags u r) (tag t : Name) (sel : Perms) :
    Carries tags sel r (u.report tag t sel) := by
  match u with
  | .coarse none => exact h.elim
  | .coarse (some perms) =>
    rw [RuleU.report]
    split
    · next hm => exact .inr ⟨perms, h, hm⟩
    · exact ⟨perms, h, rfl⟩
  | .fine read write =>
    rw [RuleU.report]
    split
    · next hm => exact .inl hm
    · exact ⟨rfl, h⟩

theorem Perms.inter_all (perms : Perms) : perms.inter ⟨true, true⟩ = perms := by
  simp [Perms.inter]

/-- Asked for everything, a report tells the rules apart that the entry does. -/
theorem Agrees.of_carries (h : Agrees tags u r') (hc : Carries tags ⟨true, true⟩ r (u.report tag t ⟨true, true⟩)) :
    Agrees tags u r := by
  match u with
  | .coarse none => exact h.elim
  | .coarse (some perms) =>
    rw [RuleU.report, Perms.inter_all] at hc
    split at hc
    · next hm =>
      obtain ⟨perms', rfl, h0⟩ := hc.resolve_left nofun
      rw [Perms.inter_all] at h0
      rw [hm, h0]
      rfl
    · obtain ⟨perms', rfl, hm⟩ := hc
      rw [Perms.inter_all] at hm
      rw [hm]
      rfl
  | .fine read write => exact hc.2

/-! ## The entry that decides -/

/-- A name for which the participant has an entry in the end: its own, and the patterns of the policy that one of its
own is expanded to. -/
def Expanded (policy : Policy) (p : Participant) (n : Name) : Prop :=
  p.Has n ∨ (policy.Lists n ∧ ∃ r, p.Best n r ∧ r.Reaches)

section

variable {policy : Policy} {p : Participant} {part : ParticipantDesc} {t : Name}

theorem Completed.mem_iff (hpart : part = ParticipantDesc.sortRules ⟨p.tag, own ++ added⟩)
    (e : RuleEntry) : e ∈ part.ruleEntries ↔ e ∈ own ∨ e ∈ added := by
  rw [hpart, ← mem_append]
  exact (hashSort_perm topic topicPrefixLengthSort (own ++ added)).mem_iff

def ParticipantDesc.Names (part : ParticipantDesc) (n : Name) : Prop := n ∈ part.ruleEntries.map topic

section
variable (h : Completed policy p part)
include h

namespace Completed

theorem names_of_has (hn : p.Has n) : part.Names n := by
  obtain ⟨_, own, added, hpart, hc⟩ := h
  obtain ⟨e, he, rfl⟩ := mem_map.1 ((hc.has_iff n).1 hn)
  exact mem_map_of_mem ((mem_iff hpart e).2 (.inl he))

/-- **An entry that no pattern of the participant comes before carries the permissions of the most specific rule.** -/
theorem entry_agrees (he : e ∈ part.ruleEntries)
    (hl : p.Has e.topic → Leads '*' p.Has e.topic e.topic) : ∃ r, p.Best e.topic r ∧ Agrees policy.tags e.u r := by
  obtain ⟨_, own, added, hpart, hc⟩ := h
  rcases (mem_iff hpart e).1 he with he | he
  · obtain ⟨r, hr, hag⟩ := hc.own_agrees he (hl ((hc.has_iff _).2 (mem_map_of_mem he)))
    exact ⟨r, best_of_mem hr, hag⟩
  · exact (hc.added_ok e he).2.2.1

/-- The entry of a pattern has the kind of its topic. -/
theorem isFine_iff (hp : p ∈ policy.participants) (he : e ∈ part.ruleEntries) (hw : '*' ∈ e.topic) :
    e.u.isFine = true ↔ policy.FineGrained e.topic := by
  obtain ⟨_, own, added, hpart, hc⟩ := h
  rcases (mem_iff hpart e).1 he with he | he
  · have hhas := (hc.has_iff _).2 (mem_map_of_mem he)
    obtain ⟨d, hd, hname⟩ := mem_map.1 ((mem_completedTopics policy _).2 (lists_of_has hp hhas))
    rw [← hname] at hhas hw ⊢
    obtain ⟨r, hr, hu⟩ := hc.settled e he d hd hname.symm (leads_self (trailing_of_has p) hhas hw)
    rw [hu, settle_isFine, fineGrained_iff hd hw]
    cases r with
    | coarse perms => simp [Rule.isFine]
    | fine sections =>
      exact iff_of_true rfl ((fineGrained_iff hd hw).1 ((best_of_mem hr).fineGrained hp))
  · exact (hc.added_ok e he).2.2.2 hw

theorem trailing (hn : part.Names n) : Trailing '*' n := by
  obtain ⟨_, own, added, hpart, hc⟩ := h
  obtain ⟨e, he, rfl⟩ := mem_map.1 hn
  rcases (mem_iff hpart e).1 he with he | he
  · exact trailing_of_has p _ ((hc.has_iff _).2 (mem_map_of_mem he))
  · exact trailing_of_lists ((mem_completedTopics policy _).1 (hc.added_ok e he).1)

theorem names_iff (hn : '*' ∈ n ∨ p.Has n) : part.Names n ↔ Expanded policy p n := by
  by_cases hhas : p.Has n
  · exact ⟨fun _ => .inl hhas, fun _ => h.names_of_has hhas⟩
  have hw : '*' ∈ n := hn.resolve_right hhas
  obtain ⟨_, own, added, hpart, hc⟩ := h
  have hname : part.Names n ↔ n ∈ added.map topic := by
    constructor
    · intro hn
      obtain ⟨e, he, rfl⟩ := mem_map.1 hn
      rcases (mem_iff hpart e).1 he with he | he
      · exact absurd ((hc.has_iff _).2 (mem_map_of_mem he)) hhas
      · exact mem_map_of_mem he
    · intro hn
      obtain ⟨e, he, rfl⟩ := mem_map.1 hn
      exact mem_map_of_mem ((mem_iff hpart e).2 (.inr he))
  rw [hname]
  constructor
  · intro hn
    have hdone : n ∈ policy.completedTopics.map TopicDesc.name := by
      obtain ⟨e, he, rfl⟩ := mem_map.1 hn
      exact (hc.added_ok e he).1
    obtain ⟨d, hd, rfl⟩ := mem_map.1 hdone
    exact .inr ⟨(mem_completedTopics policy _).1 (mem_map_of_mem hd), (hc.expanded d hd hw hhas).1 hn⟩
  · rintro (hc' | ⟨hl, hr⟩)
    · exact absurd hc' hhas
    · obtain ⟨d, hd, rfl⟩ := mem_map.1 ((mem_completedTopics policy n).2 hl)
      exact (hc.expanded d hd hw hhas).2 hr

theorem leads_of_find
    (hf : part.ruleEntries.find? (isMatch t) = some e) : Leads '*' part.Names e.topic t := by
  obtain ⟨_, own, added, hpart, hc⟩ := h
  have hs : part.ruleEntries.Pairwise fun a b => Longer a.topic b.topic := by
    rw [hpart]
    exact hashSort_longest_first topic (own ++ added)
  refine ⟨mem_map_of_mem (mem_of_find?_eq_some hf), isMatch_iff.1 (find?_some hf), fun v hv hcv => ?_⟩
  obtain ⟨e', he', rfl⟩ := mem_map.1 hv
  rcases find?_sorted hs hf e' he' (isMatch_iff.2 hcv) with rfl | hl
  · exact .inr ⟨rfl, le_rfl⟩
  · exact hl

theorem leads_iff (ht : p.Has t) {w : Name} :
    Leads '*' part.Names w t ↔ Leads '*' (Expanded policy p) w t := by
  have hiff : ∀ v, Covers '*' v t → (part.Names v ↔ Expanded policy p v) := fun v hv =>
    h.names_iff (hv.elim (fun he => .inr (he ▸ ht)) fun hw => .inl hw.1)
  constructor
  · exact fun ⟨hw, hc, hall⟩ => ⟨(hiff w hc).1 hw, hc, fun v hv hcv => hall v ((hiff v hcv).2 hv) hcv⟩
  · exact fun ⟨hw, hc, hall⟩ => ⟨(hiff w hc).2 hw, hc, fun v hv hcv => hall v ((hiff v hcv).1 hv) hcv⟩

end Completed

end

end

/-! ## The result -/

/-- The policy is accepted, and what is reported for a participant and a topic carries the permissions of its most
specific rule, if it has one. -/
def Respected (policy : Policy) : Prop :=
  ∃ c, policy.load.finalize = .ok c ∧ ∀ p ∈ policy.participants, ∀ t, policy.Lists t → ∀ sel,
    ∃ rep : Option Report, c.getTopicRules (some p.tag) (some t) sel = .ok rep.toList ∧
      (∀ x ∈ rep, x.participantTag = p.tag ∧ x.topicName = t) ∧
      (∀ r, p.Best t r → Carries policy.tags sel r rep) ∧ ((∀ r, ¬p.Best t r) → rep = none)

/-- The rules are one rule or, where a fine grained rule concerns the name, grant the same users. -/
def SamePermissions (policy : Policy) (n : Name) (r r' : Rule) : Prop :=
  r = r' ∨ policy.FineGrained n ∧ ∀ d user, r.grants policy.tags d user ↔ r'.grants policy.tags d user

/-- No rule is overruled: a pattern of the participant that comes before a name that it has a rule for is concerned by a
fine grained rule, and the pattern that comes first in the end has the permissions of that rule. -/
def NotOverruled (policy : Policy) : Prop :=
  ∀ p ∈ policy.participants, ∀ t r, (t, r) ∈ p.rules → (∀ m, Leads '*' p.Has m t → m ≠ t → policy.FineGrained m) ∧
    ∀ w, Leads '*' (Expanded policy p) w t → w ≠ t → ∀ r', p.Best w r' → SamePermissions policy w r r'

theorem Agrees.congr_iff (h : Agrees policy.tags u r') (hkind : u.isFine = true ↔ policy.FineGrained n) :
    Agrees policy.tags u r ↔ SamePermissions policy n r r' := by
  match u with
  | .coarse none => exact h.elim
  | .coarse (some perms) =>
    obtain rfl : r' = .coarse perms := h
    have hn : ¬policy.FineGrained n := fun hf => absurd (hkind.2 hf) nofun
    simp [Agrees, SamePermissions, hn]
  | .fine read write =>
    have hf : policy.FineGrained n := hkind.1 rfl
    constructor
    · exact fun hr => .inr ⟨hf, fun d user => (hr d user).symm.trans (h d user)⟩
    · rintro (rfl | ⟨_, heq⟩)
      · exact h
      · exact fun d user => (h d user).trans (heq d user).symm

theorem forall_not_blocked_iff (policy : Policy) :
    (∀ p ∈ policy.participants, ∀ t, ¬Blocked policy p t) ↔
      ∀ p ∈ policy.participants, ∀ t r, (t, r) ∈ p.rules → ∀ m, Leads '*' p.Has m t → m ≠ t → policy.FineGrained m := by
  constructor
  · intro h p hp t r hr m hl hne
    by_contra hf
    exact h p hp t ⟨has_of_mem hr, m, hl, hne, hf⟩
  · rintro h p hp t ⟨hhas, m, hl, hne, hf⟩
    obtain ⟨nr, hnr, rfl⟩ := mem_map.1 hhas
    exact hf (h p hp nr.1 nr.2 hnr m hl hne)

theorem Completed.report (h : Completed policy p part) (hp : p ∈ policy.participants) (c : Cache)
    (hn : (c.participants.map ParticipantDesc.tag).Nodup) (hpart : part ∈ c.participants) (t : Name) (sel : Perms) :
    (∃ w u r, Leads '*' part.Names w t ∧ p.Best w r ∧ Agrees policy.tags u r ∧
      ('*' ∈ w → (u.isFine = true ↔ policy.FineGrained w)) ∧
      c.getTopicRules (some p.tag) (some t) sel = .ok (u.report p.tag t sel).toList ∧
      ∀ x ∈ u.report p.tag t sel, x.participantTag = p.tag ∧ x.topicName = t) ∨
    (∀ v, part.Names v → ¬Covers '*' v t) ∧ c.getTopicRules (some p.tag) (some t) sel = .ok [] := by
  have hq := @getTopicRules_one t sel c hn part hpart
  rw [h.1] at hq
  rw [hq]
  unfold findMatch
  cases hf : part.ruleEntries.find? (isMatch t) with
  | none =>
    refine .inr ⟨fun v hv hc => ?_, rfl⟩
    obtain ⟨e, he, rfl⟩ := mem_map.1 hv
    exact absurd (isMatch_iff.2 hc) (find?_eq_none.1 hf e he)
  | some e =>
    have hl := h.leads_of_find hf
    have he := mem_of_find?_eq_some hf
    have hself : p.Has e.topic → Leads '*' p.Has e.topic e.topic := by
      intro hhas
      by_cases hne : e.topic = t
      · rw [hne] at hl hhas ⊢
        exact ⟨hhas, .inl rfl, fun v hv hc => hl.2.2 v (h.names_of_has hv) hc⟩
      · exact leads_self (trailing_of_has p) hhas (hl.wild hne).1
    obtain ⟨r, hr, hag⟩ := h.entry_agrees he hself
    exact .inl ⟨e.topic, e.u, r, hl, hr, hag, h.isFine_iff hp he, reportEntry_eq hag⟩

theorem Completed.best_of_leads
    (h : Completed policy p part) {t w : Name} (hl : Leads '*' part.Names w t) (hb : p.Best w r)
    (ht : w = t ∨ ¬p.Has t) : p.Best t r := by
  by_cases hne : w = t
  · exact hne ▸ hb
  · obtain ⟨m, hm, hr⟩ := hb
    exact ⟨m, hl.specific_of_added (trailing_of_has p) (fun _ => h.names_of_has) (h.trailing hl.1) hne
      (ht.resolve_left hne) hm, hr⟩

theorem tags_of_forall₂ (h : List.Forall₂ (Completed policy) policy.participants parts) :
    parts.map ParticipantDesc.tag = policy.tags := by
  have key : ∀ {ps : List Participant} {parts : List ParticipantDesc}, List.Forall₂ (Completed policy) ps parts →
      parts.map ParticipantDesc.tag = ps.map Participant.tag := by
    intro ps parts h
    induction h with
    | nil => rfl
    | cons hc _ ih => rw [map_cons, map_cons, hc.1, ih]
  exact key h

def refused : Policy where
  participants := [
    { tag := ['u', 'i', 'd', ':', '1'],
      rules := [(['a', 'b', '*'], .coarse ⟨true, true⟩), (['a', 'b', 'c'], .coarse ⟨true, false⟩)] }]

def overruled : Policy where
  participants := [
    { tag := ['u', 'i', 'd', ':', '1'],
      rules := [(['a', '*'], .coarse ⟨true, true⟩), (['a', 'b', 'c'], .coarse ⟨true, false⟩)] },
    { tag := ['u', 'i', 'd', ':', '2'], rules := [(['a', 'b', '*'], .coarse ⟨true, true⟩)] }]

end Qeo.Security
