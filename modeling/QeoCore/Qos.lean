import Mathlib.Data.List.Basic
/-!
# Qos — matching offered and requested QoS (uqos.c)

The presentation of an endpoint comes from its group where there is one; `Rule` says for each policy what offered and
requested values must satisfy.  The walk also compares the presentation fields of the endpoints themselves.
-/
namespace Qeo.Qos

open List

inductive Policy
  | userData | topicData | groupData | durability | durabilityService | presentation | deadline | latencyBudget
  | ownership | ownershipStrength | liveliness | timeBasedFilter | partition | reliability | transportPriority
  | lifespan | destinationOrder | history | resourceLimits | entityFactory | writerDataLifecycle | readerDataLifecycle
  deriving DecidableEq

inductive QType
  | integer | boolean | octetSeq | partition | duration | timestampType | sharedExclusive | durability
  | durabilityService | presentation | liveliness | reliability | history | resourceLimits | readerDataLifecycle
  deriving DecidableEq

structure Duration where
  sec : Int
  nanosec : Nat
  deriving DecidableEq

structure Presentation where
  accessScope : Fin 4
  coherentAccess : Bool
  orderedAccess : Bool
  deriving DecidableEq

structure UniQos where
  durabilityKind : Fin 4
  presentation : Presentation
  ownershipKind : Fin 2
  livelinessKind : Fin 4
  reliabilityKind : Fin 2
  destinationOrderKind : Fin 2
  deadline : Duration
  latencyBudget : Duration
  livelinessLeaseDuration : Duration
  lifespan : Duration
  deriving DecidableEq

structure Desc where
  check : Bool
  inParent : Bool
  type : QType
  /-- What `uni_ofs` points to, for a duration. -/
  uniOfs : Option (UniQos → Duration)

def qosDescs : Policy → Desc
  | .userData => ⟨false, false, .octetSeq, none⟩
  | .topicData => ⟨false, false, .octetSeq, none⟩
  | .groupData => ⟨false, true, .octetSeq, none⟩
  | .durability => ⟨true, false, .durability, none⟩
  | .durabilityService => ⟨false, false, .durabilityService, none⟩
  | .presentation => ⟨true, true, .presentation, none⟩
  | .deadline => ⟨true, false, .duration, some UniQos.deadline⟩
  | .latencyBudget => ⟨true, false, .duration, some UniQos.latencyBudget⟩
  | .ownership => ⟨true, false, .sharedExclusive, none⟩
  | .ownershipStrength => ⟨false, false, .integer, none⟩
  | .liveliness => ⟨true, false, .liveliness, none⟩
  | .timeBasedFilter => ⟨false, false, .duration, none⟩
  | .partition => ⟨false, true, .partition, none⟩
  | .reliability => ⟨true, false, .reliability, none⟩
  | .transportPriority => ⟨false, false, .integer, none⟩
  | .lifespan => ⟨false, false, .duration, some UniQos.lifespan⟩
  | .destinationOrder => ⟨true, false, .timestampType, none⟩
  | .history => ⟨false, false, .history, none⟩
  | .resourceLimits => ⟨false, false, .resourceLimits, none⟩
  | .entityFactory => ⟨false, true, .boolean, none⟩
  | .writerDataLifecycle => ⟨false, false, .boolean, none⟩
  | .readerDataLifecycle => ⟨false, false, .readerDataLifecycle, none⟩

def Policy.all : List Policy :=
  [.userData, .topicData, .groupData, .durability, .durabilityService, .presentation, .deadline, .latencyBudget,
    .ownership, .ownershipStrength, .liveliness, .timeBasedFilter, .partition, .reliability, .transportPriority,
    .lifespan, .destinationOrder, .history, .resourceLimits, .entityFactory, .writerDataLifecycle, .readerDataLifecycle]

/-! ## The match functions -/

def Duration.exceeds (w r : Duration) : Bool := r.sec < w.sec || (w.sec == r.sec && r.nanosec < w.nanosec)

def qosPresentationMatch (w r : Presentation) : Bool :=
  r.accessScope ≤ w.accessScope && (!r.coherentAccess || w.coherentAccess == r.coherentAccess)
    && (!r.orderedAccess || w.orderedAccess == r.orderedAccess)

def qtDurationMatch (ofs : UniQos → Duration) (w r : UniQos) : Bool := !(ofs w).exceeds (ofs r)

section
variable (w r : UniQos)

def qtTimestampMatch : Bool := r.destinationOrderKind ≤ w.destinationOrderKind

def qtSharedExclMatch : Bool := w.ownershipKind = r.ownershipKind

def qtDurabilityMatch : Bool := r.durabilityKind ≤ w.durabilityKind

def qtPresentationMatch : Bool := qosPresentationMatch w.presentation r.presentation

def qtLivelinessMatch : Bool :=
  if w.livelinessKind < r.livelinessKind then false
  else !w.livelinessLeaseDuration.exceeds r.livelinessLeaseDuration

def qtReliabilityMatch : Bool := r.reliabilityKind ≤ w.reliabilityKind

end

def matchFct (d : Desc) : Option (UniQos → UniQos → Bool) :=
  match d.type with
  | .duration => d.uniOfs.map qtDurationMatch
  | .timestampType => some qtTimestampMatch
  | .sharedExclusive => some qtSharedExclMatch
  | .durability => some qtDurabilityMatch
  | .presentation => some qtPresentationMatch
  | .liveliness => some qtLivelinessMatch
  | .reliability => some qtReliabilityMatch
  | _ => none

structure Side where
  uni : UniQos
  group : Option Presentation

def Side.presentation (s : Side) : Presentation := s.group.getD s.uni.presentation

inductive MatchResult
  | match
  | mismatch (qid : Policy)
  /-- A call through a NULL `match_fct`. -/
  | fault
  deriving DecidableEq

def matchLoop (w r : Side) : List Policy → MatchResult
  | [] => .match
  | qos :: rest =>
    let qdp := qosDescs qos
    if !qdp.check then matchLoop w r rest
    else if qdp.inParent && qdp.type == .presentation && !qosPresentationMatch w.presentation r.presentation then
      .mismatch .presentation
    else
      match matchFct qdp with
      | none => .fault
      | some fct => if fct w.uni r.uni then matchLoop w r rest else .mismatch qos

def qosMatch (w r : Side) : MatchResult := matchLoop w r Policy.all

/-! ## The rules -/

def Duration.le (a b : Duration) : Prop := a.sec < b.sec ∨ a.sec = b.sec ∧ a.nanosec ≤ b.nanosec

def Presentation.offers (w r : Presentation) : Prop :=
  r.accessScope ≤ w.accessScope ∧ (r.coherentAccess = true → w.coherentAccess = true) ∧
    (r.orderedAccess = true → w.orderedAccess = true)

def Rule (w r : Side) : Policy → Prop
  | .durability => r.uni.durabilityKind ≤ w.uni.durabilityKind
  | .presentation => w.presentation.offers r.presentation
  | .deadline => w.uni.deadline.le r.uni.deadline
  | .latencyBudget => w.uni.latencyBudget.le r.uni.latencyBudget
  | .ownership => w.uni.ownershipKind = r.uni.ownershipKind
  | .liveliness => r.uni.livelinessKind ≤ w.uni.livelinessKind ∧
      w.uni.livelinessLeaseDuration.le r.uni.livelinessLeaseDuration
  | .reliability => r.uni.reliabilityKind ≤ w.uni.reliabilityKind
  | .destinationOrder => r.uni.destinationOrderKind ≤ w.uni.destinationOrderKind
  | _ => True

theorem not_exceeds (a b : Duration) : (!a.exceeds b) = true ↔ a.le b := by
  simp only [Duration.exceeds, Duration.le, Bool.not_eq_true', Bool.or_eq_false_iff, decide_eq_false_iff_not,
    Bool.and_eq_false_iff, beq_eq_false_iff_ne]
  omega

theorem qosPresentationMatch_iff (w r : Presentation) : qosPresentationMatch w r = true ↔ w.offers r := by
  unfold qosPresentationMatch Presentation.offers
  rcases r with ⟨rs, rc, ro⟩
  cases rc <;> cases ro <;> simp [and_assoc]

def Passes (w r : Side) (qos : Policy) : Prop :=
  Rule w r qos ∧ (qos = .presentation → w.uni.presentation.offers r.uni.presentation)

theorem passes_iff_rule (h : qos ≠ .presentation) : Passes w r qos ↔ Rule w r qos :=
  and_iff_left fun h' => absurd h' h

theorem matchFct_spec (w r : Side) (qos : Policy) (hc : (qosDescs qos).check = true) :
    ∃ fct, matchFct (qosDescs qos) = some fct ∧ (fct w.uni r.uni = true ↔ (qos ≠ .presentation → Rule w r qos) ∧
        (qos = .presentation → w.uni.presentation.offers r.uni.presentation)) := by
  cases qos with
  | durability => exact ⟨_, rfl, by simp [qtDurabilityMatch, Rule]⟩
  | presentation => exact ⟨_, rfl, by simp [qtPresentationMatch, qosPresentationMatch_iff]⟩
  | deadline | latencyBudget => exact ⟨_, rfl, by simp only [qtDurationMatch, not_exceeds]; simp [Rule]⟩
  | ownership => exact ⟨_, rfl, by simp [qtSharedExclMatch, Rule]⟩
  | liveliness =>
    refine ⟨_, rfl, ?_⟩
    unfold qtLivelinessMatch
    split_ifs with hk
    · simp [Rule, Fin.not_le.2 hk]
    · simp only [not_exceeds]
      simp [Rule, Fin.not_lt.1 hk]
  | reliability => exact ⟨_, rfl, by simp [qtReliabilityMatch, Rule]⟩
  | destinationOrder => exact ⟨_, rfl, by simp [qtTimestampMatch, Rule]⟩
  | _ => cases hc

theorem matchLoop_cons (w r : Side) (qos : Policy) (rest : List Policy) :
    matchLoop w r (qos :: rest) = .mismatch qos ∧ (qosDescs qos).check = true ∧ ¬ Passes w r qos ∨
    matchLoop w r (qos :: rest) = matchLoop w r rest ∧ ((qosDescs qos).check = true → Passes w r qos) := by
  by_cases hc : (qosDescs qos).check = true
  · obtain ⟨fct, hfct, hspec⟩ := matchFct_spec w r qos hc
    by_cases hp : qos = .presentation
    · subst hp
      by_cases hg : qosPresentationMatch w.presentation r.presentation = true
      · -- the group's presentation passes; the endpoints' own decides
        have hrule : Rule w r .presentation := (qosPresentationMatch_iff _ _).1 hg
        by_cases hu : fct w.uni r.uni = true
        · right
          refine ⟨?_, fun _ => ⟨hrule, (hspec.1 hu).2⟩⟩
          simp [matchLoop, hc, hg, hfct, hu]
        · left
          refine ⟨?_, hc, fun h => hu (hspec.2 ⟨fun hne => absurd rfl hne, h.2⟩)⟩
          simp [matchLoop, hc, hg, hfct, hu]
      · left
        refine ⟨?_, hc, fun h => hg ((qosPresentationMatch_iff _ _).2 h.1)⟩
        simp [matchLoop, qosDescs, hg]
    have htype : ((qosDescs qos).inParent && (qosDescs qos).type == .presentation) = false := by
      cases qos <;> first | rfl | exact absurd rfl hp
    have hiff : fct w.uni r.uni = true ↔ Passes w r qos := by
      rw [hspec, passes_iff_rule hp]
      exact ⟨fun h => h.1 hp, fun h => ⟨fun _ => h, fun h' => absurd h' hp⟩⟩
    by_cases hu : fct w.uni r.uni = true
    · right
      exact ⟨by simp [matchLoop, hc, htype, hfct, hu], fun _ => hiff.1 hu⟩
    · left
      exact ⟨by simp [matchLoop, hc, htype, hfct, hu], hc, fun h => hu (hiff.2 h)⟩
  · right
    exact ⟨by simp [matchLoop, hc], fun h => absurd h hc⟩

/-- **The walk stops at the first checked policy that does not pass.** -/
theorem matchLoop_cases (w r : Side) : ∀ ps : List Policy,
    (matchLoop w r ps = .match ∧ ∀ p ∈ ps, (qosDescs p).check = true → Passes w r p) ∨
    ∃ pre p post, ps = pre ++ p :: post ∧ matchLoop w r ps = .mismatch p ∧ (qosDescs p).check = true ∧
      ¬ Passes w r p ∧ ∀ q ∈ pre, (qosDescs q).check = true → Passes w r q
  | [] => .inl ⟨rfl, nofun⟩
  | qos :: rest => by
    rcases matchLoop_cons w r qos rest with ⟨hl, hc, hn⟩ | ⟨hl, hp⟩
    · exact .inr ⟨[], qos, rest, rfl, hl, hc, hn, nofun⟩
    · rcases matchLoop_cases w r rest with ⟨hr, hall⟩ | ⟨pre, p, post, rfl, hr, hc, hn, hpre⟩
      · exact .inl ⟨hl.trans hr, forall_mem_cons.2 ⟨hp, hall⟩⟩
      · exact .inr ⟨qos :: pre, p, post, rfl, hl.trans hr, hc, hn, forall_mem_cons.2 ⟨hp, hpre⟩⟩

theorem Policy.mem_all (p : Policy) : p ∈ Policy.all := by cases p <;> decide

/-- The result says whether every checked policy satisfies its rule, and a reported policy does not. -/
def FollowsRules (w r : Side) : Prop :=
  (qosMatch w r = .match ↔ ∀ p, (qosDescs p).check = true → Rule w r p) ∧
    ∀ p, qosMatch w r = .mismatch p → (qosDescs p).check = true ∧ ¬ Rule w r p

def earlyPolicies : List Policy := Policy.all.takeWhile (· ≠ .presentation)

theorem early_of_split (h : Policy.all = pre ++ post) (hpre : Policy.presentation ∉ pre) :
    earlyPolicies = pre ++ post.takeWhile (· ≠ .presentation) := by
  rw [earlyPolicies, h]
  apply takeWhile_append_of_pos
  intro q hq
  have hne : q ≠ .presentation := fun heq => hpre (heq ▸ hq)
  exact decide_eq_true hne

theorem early_checked : ∀ p ∈ earlyPolicies, (qosDescs p).check = true → p = .durability := by
  decide

/-- **Matching follows the rules exactly where comparing the endpoints' own presentation fields adds nothing**: a rule
that is checked no later fails, or these fields satisfy the presentation rule as well. -/
theorem qos_match_follows_rules (w r : Side) :
    FollowsRules w r ↔ (Rule w r .durability → Rule w r .presentation →
    w.uni.presentation.offers r.uni.presentation) := by
  have hwalk := matchLoop_cases w r Policy.all
  constructor
  · intro hf hd hp
    by_contra hu
    have hn : ¬ Passes w r .presentation := fun h => hu (h.2 rfl)
    rcases hwalk with ⟨-, hall⟩ | ⟨pre, p, post, hsplit, hl, hc, -, hpre⟩
    · exact hn (hall _ (Policy.mem_all _) rfl)
    -- the rule of what is reported fails, so it is neither the presentation nor, before it, the durability
    have hrule := (hf.2 p hl).2
    have hne : p ≠ .presentation := fun h => hrule (h ▸ hp)
    have hmem : Policy.presentation ∉ pre ++ [p] := by
      rw [mem_append, mem_singleton]
      rintro (h | h)
      · exact hn (hpre _ h rfl)
      · exact hne h.symm
    have hp' : p ∈ earlyPolicies := by
      rw [early_of_split (hsplit.trans (append_cons ..)) hmem]
      exact mem_append_left _ (mem_append_right _ (mem_singleton.2 rfl))
    exact hrule (early_checked p hp' hc ▸ hd)
  intro hcond
  rcases hwalk with ⟨hl, hall⟩ | ⟨pre, p, post, hsplit, hl, hc, hn, hpre⟩
  · refine ⟨⟨fun _ p hc => (hall p (Policy.mem_all p) hc).1, fun _ => hl⟩, fun p hp => ?_⟩
    rw [qosMatch, hl] at hp
    cases hp
  have hrule : ¬ Rule w r p := by
    by_cases hp : p = .presentation
    · subst hp
      intro hr
      have hmem : Policy.presentation ∉ pre := fun h => hn (hpre _ h rfl)
      have hearly := early_of_split hsplit hmem
      rw [takeWhile_cons_of_neg (by decide), append_nil] at hearly
      have hd : Policy.durability ∈ pre := by
        rw [← hearly]
        decide
      exact hn ⟨hr, fun _ => hcond (hpre _ hd rfl).1 hr⟩
    · exact fun hr => hn ((passes_iff_rule hp).2 hr)
  refine ⟨⟨fun h => ?_, fun h => absurd (h p hc) hrule⟩, fun q hq => ?_⟩
  · rw [qosMatch, hl] at h
    cases h
  · rw [qosMatch, hl] at hq
    cases hq
    exact ⟨hc, hrule⟩

def infinite : Duration := ⟨0x7fffffff, 0x7fffffff⟩

def defaultQos (p : Presentation) : UniQos :=
  { durabilityKind := 0, presentation := p, ownershipKind := 0, livelinessKind := 0, reliabilityKind := 0,
    destinationOrderKind := 0, deadline := infinite, latencyBudget := ⟨0, 0⟩, livelinessLeaseDuration := infinite,
    lifespan := infinite }

def coherentWriter : Side := ⟨defaultQos ⟨0, false, false⟩, some ⟨1, true, false⟩⟩

def coherentReader : Side := ⟨defaultQos ⟨1, true, false⟩, none⟩

instance (a b : Duration) : Decidable (a.le b) := inferInstanceAs (Decidable (_ ∨ _))

instance (w r : Presentation) : Decidable (w.offers r) := inferInstanceAs (Decidable (_ ∧ _))

instance (w r : Side) : DecidablePred (Rule w r) := fun p => by
  cases p <;> unfold Rule <;> infer_instance

theorem coherent_presentation_mismatch : qosMatch coherentWriter coherentReader = .mismatch .presentation ∧
    ∀ p, Rule coherentWriter coherentReader p := by
  refine ⟨by decide, fun p => ?_⟩
  cases p <;> decide

end Qeo.Qos
