import QeoCore.PolicyLoad
/-!
# PolicyTopics — the order of the names, and the topics after completion
-/
namespace Qeo.Security

section

open List Bool TopicDesc Wildcard

variable {n : Name}

/-! ## Comparing and sorting -/

theorem expands_iff : expands v n = true ↔ '*' ∈ v ∧ stem '*' v <+: n := by
  simp [expands, isPrefixOf_iff_prefix]

theorem isMatch_iff {e : RuleEntry} : e.isMatch n = true ↔ Covers '*' e.topic n := by
  rw [RuleEntry.isMatch, or_eq_true, expands_iff, beq_iff_eq]
  rfl

theorem strcmp_nonpos : strcmp a b ≤ 0 ↔ a ≤ b := by
  unfold strcmp
  rcases lt_trichotomy a b with h | h | h
  · simp [h, h.le]
  · simp [h]
  · simp [h.not_gt, h.ne', h]

theorem topicPrefixLengthSort_nonpos : topicPrefixLengthSort a b ≤ 0 ↔ Longer a b := by
  unfold topicPrefixLengthSort Longer
  split
  · next h => simp [h, strcmp_nonpos]
  · next h => split <;> simp <;> omega

theorem topicPrefixLengthInverseSort_nonpos : topicPrefixLengthInverseSort a b ≤ 0 ↔ Longer b a := by
  unfold topicPrefixLengthInverseSort Longer
  split
  · next h => simp [h, strcmp_nonpos]
  · next h => split <;> simp <;> omega

section
variable (key : α → Name)

theorem hashSort_perm (cmp : Name → Name → Int) (l : List α) :
    (hashSort key cmp l).Perm l := perm_insertionSort _ l

theorem hashSort_sorted {cmp : Name → Name → Int} {R : Name → Name → Prop}
    (h : ∀ a b, cmp a b ≤ 0 ↔ R a b) (ht : ∀ a b, R a b ∨ R b a) (htr : ∀ a b c, R a b → R b c → R a c) (l : List α) :
    (hashSort key cmp l).Pairwise fun a b => R (key a) (key b) := by
  have : Std.Total fun a b => cmp (key a) (key b) ≤ 0 := ⟨fun a b => by rw [h, h]; exact ht _ _⟩
  have : IsTrans α fun a b => cmp (key a) (key b) ≤ 0 := ⟨fun a b c => by rw [h, h, h]; exact htr _ _ _⟩
  exact (pairwise_insertionSort _ l).imp fun hab => (h _ _).1 hab

theorem hashSort_longest_first (l : List α) :
    (hashSort key topicPrefixLengthSort l).Pairwise fun a b => Longer (key a) (key b) :=
  hashSort_sorted key (fun _ _ => topicPrefixLengthSort_nonpos) longer_total (fun _ _ _ => Longer.trans) l

theorem hashSort_shortest_first (l : List α) :
    (hashSort key topicPrefixLengthInverseSort l).Pairwise fun a b => Longer (key b) (key a) :=
  hashSort_sorted key (fun _ _ => topicPrefixLengthInverseSort_nonpos) (fun a b => longer_total b a)
    (fun _ _ _ hab hbc => hbc.trans hab) l

end

/-! ## Topics that become fine grained -/

theorem completeTopicsFrom_names (seen : List Name) (l : List TopicDesc) :
    (completeTopicsFrom seen l).map name = l.map name := by
  induction l generalizing seen with
  | nil => rfl
  | cons t l ih => simp [completeTopicsFrom, ih]

theorem fineIn_cons : FineIn (t :: l) n ↔ (t.name = n ∧ t.coarseGrained = false) ∨ FineIn l n := by
  simp [FineIn]

theorem FineIn.mono (h : l ⊆ l') : FineIn l n → FineIn l' n := fun ⟨t, ht, hn⟩ => ⟨t, h ht, hn⟩

def MadeFine (seen : List Name) (l : List TopicDesc) (n : Name) : Prop :=
  (∃ v ∈ seen, expands v n = true) ∨ ∃ v, FineIn l v ∧ Covers '*' v n

theorem madeFine_of_fineIn (l : List TopicDesc) (htr : ∀ t ∈ l, Trailing '*' t.name) (seen : List Name) (n : Name)
    (h : FineIn (completeTopicsFrom seen l) n) : MadeFine seen l n := by
  induction l generalizing seen with
  | nil => exact absurd h (by simp [FineIn, completeTopicsFrom])
  | cons t l ih =>
    have head : (t.coarseGrained && !seen.any (expands · t.name)) = false →
        ∀ m, Covers '*' t.name m → MadeFine seen (t :: l) m := by
      intro hc m hm
      rcases and_eq_false_iff.1 hc with hc | hc
      · exact .inr ⟨t.name, fineIn_cons.2 (.inl ⟨rfl, hc⟩), hm⟩
      obtain ⟨v, hv, hvt⟩ := any_eq_true.1 ((not_eq_false' _).mp hc)
      refine .inl ⟨v, hv, ?_⟩
      rcases hm with rfl | ⟨hw, hp⟩
      · exact hvt
      · have hv' := expands_iff.1 hvt
        exact expands_iff.2 ⟨hv'.1, Covers.trans_wild hw (htr t (mem_cons_self ..)) (.inr hv') hp⟩
    rcases fineIn_cons.1 h with ⟨rfl, hc⟩ | h
    · exact head hc _ (.inl rfl)
    rcases ih (forall_mem_cons.1 htr).2 _ h with ⟨v, hv, hvn⟩ | ⟨v, hv, hvn⟩
    · split at hv
      · next hfine =>
        rcases mem_cons.1 hv with rfl | hv
        · rw [and_eq_true, not_eq_true'] at hfine
          exact head hfine.1 n (.inr (expands_iff.1 hvn))
        · exact .inl ⟨v, hv, hvn⟩
      · exact .inl ⟨v, hv, hvn⟩
    · exact .inr ⟨v, hv.mono (subset_cons_self ..), hvn⟩

theorem fineIn_of_madeFine (l : List TopicDesc) (hs : l.Pairwise fun a b => Longer b.name a.name)
    (hn : (l.map name).Nodup) (htr : ∀ t ∈ l, Trailing '*' t.name) (seen : List Name) (n : Name)
    (hw : '*' ∈ n) (hmem : n ∈ l.map name) (h : MadeFine seen l n) :
    FineIn (completeTopicsFrom seen l) n := by
  induction l generalizing seen with
  | nil => exact absurd hmem (not_mem_nil)
  | cons t l ih =>
    rw [map_cons, nodup_cons] at hn
    rw [pairwise_cons] at hs
    have hv : ∀ v, FineIn (t :: l) v → t.name = v ∧ t.coarseGrained = false ∨ FineIn l v := fun v => fineIn_cons.1
    refine fineIn_cons.2 ?_
    by_cases hnt : t.name = n
    · subst hnt
      refine .inl ⟨rfl, and_eq_false_iff.2 ?_⟩
      rcases h with ⟨v, hv, hvn⟩ | ⟨v, hfine, hc⟩
      · exact .inr (by simpa using ⟨v, hv, hvn⟩)
      rcases hv v hfine with ⟨_, hfine⟩ | ⟨tv, htv, rfl, _⟩
      · exact .inl hfine
      -- a pattern later in the list is not shorter
      have hne : tv.name ≠ t.name := fun he => hn.1 (he ▸ mem_map_of_mem htv)
      have hlt := length_lt_of_covers (hc.resolve_left hne).1 (htr tv (mem_cons_of_mem _ htv)) hw
        (htr t (mem_cons_self ..)) hne hc
      exact absurd (hs.1 tv htv).length_le (Nat.not_le.2 hlt)
    have hmem : n ∈ l.map name := (mem_cons.1 hmem).resolve_left (Ne.symm hnt)
    refine .inr (ih hs.2 hn.2 (forall_mem_cons.1 htr).2 _ hmem ?_)
    rcases h with ⟨v, hv, hvn⟩ | ⟨v, hfine, hc⟩
    · refine .inl ⟨v, ?_, hvn⟩
      split
      · exact mem_cons_of_mem _ hv
      · exact hv
    · rcases hv v hfine with ⟨rfl, htc⟩ | hfine
      · have hexp := hc.resolve_left hnt
        exact .inl ⟨t.name, by simp [htc, hexp.1], expands_iff.2 hexp⟩
      · exact .inr ⟨v, hfine, hc⟩

theorem completeTopics_perm_names (topics : List TopicDesc) :
    ((completeTopics topics).map name).Perm (topics.map name) := by
  rw [completeTopics, completeTopicsFrom_names]
  exact (hashSort_perm _ _ topics).map _

namespace Policy

def completedTopics (policy : Policy) : List TopicDesc :=
  hashSort name topicPrefixLengthSort (completeTopics policy.load.topics)

def FineGrained (policy : Policy) (n : Name) : Prop := ∃ v, policy.ListsFine v ∧ Covers '*' v n

end Policy

theorem completedTopics_perm (policy : Policy) :
    (policy.completedTopics.map name).Perm (policy.load.topics.map name) :=
  ((hashSort_perm _ _ _).map _).trans (completeTopics_perm_names _)

theorem completedTopics_nodup (policy : Policy) : (policy.completedTopics.map name).Nodup :=
  (completedTopics_perm policy).nodup_iff.2 (load_topics_nodup policy)

theorem mem_completedTopics (policy : Policy) (n : Name) :
    n ∈ policy.completedTopics.map name ↔ policy.Lists n := by
  rw [(completedTopics_perm policy).mem_iff, mem_load_topics]

theorem trailing_of_lists {policy : Policy} : policy.Lists n → Trailing '*' n
  | ⟨p, _, _, hr⟩ => p.trailing _ hr

theorem trailing_of_mem_topics (policy : Policy) (ht : t ∈ policy.load.topics) : Trailing '*' t.name :=
  trailing_of_lists ((mem_load_topics policy _).1 (mem_map_of_mem ht))

/-- **A pattern is fine grained after completion exactly if a fine grained rule concerns it.** -/
theorem fineIn_completedTopics (policy : Policy) (hw : '*' ∈ n) (hn : policy.Lists n) :
    FineIn policy.completedTopics n ↔ policy.FineGrained n := by
  have hsort := hashSort_perm name topicPrefixLengthInverseSort policy.load.topics
  have htr : ∀ t ∈ hashSort name topicPrefixLengthInverseSort policy.load.topics, Trailing '*' t.name :=
    fun t ht => trailing_of_mem_topics policy (hsort.mem_iff.1 ht)
  have hfine : ∀ v, FineIn (hashSort name topicPrefixLengthInverseSort policy.load.topics) v ↔
      policy.ListsFine v := fun v => by
    rw [← fineIn_load_topics]
    exact ⟨.mono hsort.subset, .mono hsort.symm.subset⟩
  constructor
  · intro h
    have h : FineIn (completeTopics policy.load.topics) n := h.mono (hashSort_perm _ _ _).subset
    obtain ⟨_, hv, _⟩ | ⟨v, hv, hc⟩ := madeFine_of_fineIn _ htr [] n h
    · exact absurd hv (not_mem_nil)
    · exact ⟨v, (hfine v).1 hv, hc⟩
  · rintro ⟨v, hv, hc⟩
    refine FineIn.mono (hashSort_perm _ _ _).symm.subset ?_
    exact fineIn_of_madeFine _ (hashSort_shortest_first _ _) ((hsort.map _).nodup_iff.2 (load_topics_nodup policy))
      htr []
      n hw ((hsort.map _).mem_iff.2 ((mem_load_topics policy n).2 hn)) (.inr ⟨v, (hfine v).2 hv, hc⟩)

end

open Wildcard

/-! ## Entries that carry the permissions of a rule -/

def RuleU.list (read write : List Name) : Dir → List Name
  | .read => read
  | .write => write

open RuleU

def RuleU.isFine : RuleU → Bool
  | coarse _ => false
  | fine _ _ => true

/-- The entry carries the permissions of the rule: its mask or, fine grained, the users that it grants. -/
def Agrees (tags : List Name) : RuleU → Rule → Prop
  | coarse none, _ => False
  | coarse (some perms), r => r = .coarse perms
  | fine read write, r => ∀ d user, user ∈ list read write d ↔ r.grants tags d user

theorem mem_addParticipantListNode : x ∈ addParticipantListNode head n ↔ (x = n ∧ isUser n = true) ∨ x ∈ head := by
  unfold addParticipantListNode
  split <;> next h => simp [h]

theorem mem_allParticipants : x ∈ allParticipants tags ↔ x ∈ tags ∧ isUser x = true := by
  have key : ∀ head, x ∈ tags.foldl addParticipantListNode head ↔ (x ∈ tags ∧ isUser x = true) ∨ x ∈ head := by
    induction tags with
    | nil => simp
    | cons n tags ih =>
      intro head
      rw [List.foldl_cons, ih, mem_addParticipantListNode, List.mem_cons, or_and_right, ← or_assoc]
      refine or_congr_left (or_comm.trans (or_congr_left ?_))
      exact ⟨fun ⟨he, hu⟩ => ⟨he, he ▸ hu⟩, fun ⟨he, hu⟩ => ⟨he, he ▸ hu⟩⟩
  simpa [allParticipants] using key []

theorem convert_agrees (tags : List Name) (perms : Perms) :
    Agrees tags (convertCoarseToFine tags perms) (.coarse perms) := by
  intro d user
  cases d with
  | read | write =>
    simp only [list, Rule.grants, Perms.get]
    split
    · next h => rw [mem_allParticipants]; simp [h]
    · next h => simp [h]

theorem foldl_addSection (sections : List (Dir × Name)) (read write : List Name) :
    ∃ read' write', sections.foldl (fun u dn => u.addSection (Perms.only dn.1) dn.2) (fine read write) =
        .fine read' write' ∧
      ∀ d user, user ∈ list read' write' d ↔
        ((d, user) ∈ sections ∧ isUser user = true) ∨ user ∈ list read write d := by
  induction sections generalizing read write with
  | nil => exact ⟨read, write, rfl, by simp⟩
  | cons dn sections ih =>
    obtain ⟨d', n⟩ := dn
    have step : ∃ r w, (fine read write).addSection (Perms.only d') n = .fine r w ∧
        ∀ d user, user ∈ list r w d ↔ ((d, user) = (d', n) ∧ isUser user = true) ∨ user ∈ list read write d := by
      have hnode (l : List Name) (user : Name) : user ∈ addParticipantListNode l n ↔
          user = n ∧ isUser user = true ∨ user ∈ l := by
        rw [mem_addParticipantListNode]
        exact or_congr_left ⟨fun ⟨he, hu⟩ => ⟨he, he ▸ hu⟩, fun ⟨he, hu⟩ => ⟨he, he ▸ hu⟩⟩
      cases d'
      · exact ⟨addParticipantListNode read n, write, rfl, fun d user => by cases d <;> simp [list, hnode]⟩
      · exact ⟨read, addParticipantListNode write n, rfl, fun d user => by cases d <;> simp [list, hnode]⟩
    obtain ⟨r, w, hrw, hmem⟩ := step
    obtain ⟨r', w', hrw', hmem'⟩ := ih r w
    refine ⟨r', w', ?_, fun d user => ?_⟩
    · rw [List.foldl_cons, hrw, hrw']
    · rw [hmem', hmem, List.mem_cons, or_and_right, ← or_assoc]
      exact or_congr_left or_comm

theorem fine_toU (sections : List (Dir × Name)) :
    ∃ read write, (Rule.fine sections).toU = .fine read write ∧
      ∀ d user, user ∈ list read write d ↔ (d, user) ∈ sections ∧ isUser user = true := by
  obtain ⟨read, write, h, hmem⟩ := foldl_addSection sections [] []
  refine ⟨read, write, h, fun d user => ?_⟩
  rw [hmem]
  cases d <;> simp [list]

theorem toU_agrees (tags : List Name) : ∀ r : Rule, Agrees tags r.toU r
  | .coarse _ => rfl
  | .fine sections => by
    obtain ⟨read, write, h, hmem⟩ := fine_toU sections
    rw [h]
    exact hmem

def Rule.settle (tags : List Name) (coarseGrained : Bool) : Rule → RuleU
  | .coarse perms => if coarseGrained then .coarse (some perms) else convertCoarseToFine tags perms
  | .fine sections => (Rule.fine sections).toU

theorem settle_agrees (tags : List Name) (c : Bool) : ∀ r : Rule, Agrees tags (r.settle tags c) r
  | .coarse perms => by
    cases c
    · exact convert_agrees tags perms
    · rfl
  | .fine sections => toU_agrees tags (.fine sections)

theorem settle_isFine (tags : List Name) (c : Bool) : ∀ r : Rule, (r.settle tags c).isFine = (r.isFine || !c)
  | .coarse _ => by cases c <;> rfl
  | .fine sections => by
    obtain ⟨_, _, h, _⟩ := fine_toU sections
    rw [Rule.settle, h]
    rfl

/-! ## The most specific rule -/

namespace Participant

def Has (p : Participant) (n : Name) : Prop := n ∈ p.rules.map Prod.fst

def Best (p : Participant) (t : Name) (r : Rule) : Prop := ∃ w, Specific '*' p.Has w t ∧ (w, r) ∈ p.rules

end Participant

def Rule.Reaches : Rule → Prop
  | .coarse _ => True
  | .fine sections => ∃ dn ∈ sections, isUser dn.2 = true

section

variable {p : Participant} {t n : Name} {r r' : Rule}

theorem has_of_mem (h : (n, r) ∈ p.rules) : p.Has n := List.mem_map_of_mem h

theorem rule_unique (h : (n, r) ∈ p.rules) (h' : (n, r') ∈ p.rules) : r = r' :=
  congrArg Prod.snd (List.inj_on_of_nodup_map p.nodup h h' rfl)

theorem trailing_of_has (p : Participant) : ∀ v, p.Has v → Trailing '*' v := by
  intro v hv
  obtain ⟨nr, hnr, rfl⟩ := List.mem_map.1 hv
  exact p.trailing nr hnr

theorem Participant.Best.unique (h : p.Best t r) (h' : p.Best t r') : r = r' := by
  obtain ⟨w, hw, hr⟩ := h
  obtain ⟨w', hw', hr'⟩ := h'
  obtain rfl := hw.unique (trailing_of_has p) hw'
  exact rule_unique hr hr'

theorem best_of_mem (h : (t, r) ∈ p.rules) : p.Best t r := ⟨t, ⟨has_of_mem h, .inl rfl⟩, h⟩

theorem lists_of_has {policy : Policy} (hp : p ∈ policy.participants) : p.Has n → policy.Lists n := by
  intro h
  obtain ⟨nr, hnr, rfl⟩ := List.mem_map.1 h
  exact ⟨p, hp, nr.2, hnr⟩

end

end Qeo.Security
