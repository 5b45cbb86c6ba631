import QeoCore.PolicyComplete
import QeoCore.PolicyParser
/-!
# PolicyUpdate — a new policy takes the place of the one that is enforced

The parser calls back into the cache that is in use; then it is completed and the content published.  Each step can
fail, and what the ones before it did to the cache stays.
-/
namespace Qeo.Security

open List Option
open Callback (isNumber isParticipant ruleTag)

/-! ## The callbacks -/

def dotted : List Char → List Char
  | ':' :: ':' :: rest => '.' :: dotted rest
  | c :: rest => c :: dotted rest
  | [] => []

namespace Cache

def empty : Cache := ⟨[], []⟩

/-- `HASH_FIND_STR` takes the length of the tag as soon as there are participants to look through, so there has to be
one; without participants it is not found. -/
def withTag (cache : Cache) (tag : Option Name) (add : Name → Cache × Option Fail) : Option Cache :=
  match tag with
  | some tag => some (add tag).1
  | none => if cache.participants = [] then some (add []).1 else none

def callback (cache : Cache) : Callback → Option Cache
  | .sequenceNumber _ => some empty
  | .participant tag => some (cache.addParticipantTag tag)
  | .coarseGrainedRule tag topic perms => cache.withTag tag (cache.addCoarseGrainedRule · (dotted topic) perms)
  | .fineGrainedRuleSection tag topic participant perms =>
    cache.withTag tag (cache.addFineGrainedRuleSection · (dotted topic) perms participant)

def callbacks (cache : Cache) (cs : List Callback) : Option Cache := cs.foldlM callback cache

end Cache

/-! ## What a failed completion leaves -/

def ParticipantDesc.completedPart (tags : List Name) (part : ParticipantDesc) : List TopicDesc → ParticipantDesc
  | [] => part
  | topic :: topics =>
    match part.completeRule tags topic with
    | .ok part => part.completedPart tags topics
    | .error _ => part

def completedParts (tags : List Name) (topics : List TopicDesc) : List ParticipantDesc → List ParticipantDesc
  | [] => []
  | part :: parts =>
    match part.completeRules tags topics with
    | .ok part => part.sortRules :: completedParts tags topics parts
    | .error _ => part.sortRules.completedPart tags topics :: parts

def Cache.finalizedPart (cache : Cache) : Cache :=
  let topics := hashSort TopicDesc.name topicPrefixLengthSort (completeTopics cache.topics)
  ⟨topics, completedParts (cache.participants.map (·.tag)) topics cache.participants⟩

/-! ## The update -/

structure Handle where
  cache : Cache
  seqnr : Nat
  content : List Char
  deriving DecidableEq

/-- A call of `update_policy`: the new content, and what the calls it makes to others give.  `body` is the result of the
verification, `heap` what stands behind its terminating zero. -/
structure Update where
  content : List Char
  credentials : Bool
  body : Option (List Char)
  heap : List Char
  addDomain : Bool

def Cache.enforcePolicy (cache : Cache) (parsed : List Callback × Option ParseFail) (addDomain : Bool) :
    Option (Bool × Cache) :=
  (cache.callbacks parsed.1).bind fun cache =>
    if parsed.2.isSome then some (false, cache)
    else
      match cache.finalize with
      | .error .fault => none
      | .error .einval => some (false, cache.finalizedPart)
      | .ok cache => some (addDomain, cache)

def Update.parsed (u : Update) (body : List Char) : List Callback × Option ParseFail :=
  policyParserRun (body ++ nul :: u.heap)

def Handle.updatePolicy (h : Handle) (u : Update) : Option (Bool × Handle) :=
  if u.credentials then
    match u.body with
    | none => some (false, h)
    | some body =>
      (h.cache.enforcePolicy (u.parsed body) u.addDomain).map fun (ret, cache) =>
        if ret then (true, ⟨cache, sequenceNumberOf (u.parsed body).1, u.content⟩)
        else (false, { h with cache := cache })
  else some (false, h)

section

variable {cache cache' filled : Cache} {parsed : List Callback × Option ParseFail} {addDomain ret : Bool}

theorem enforcePolicy_ok (hfilled : cache.callbacks parsed.1 = some filled) (hparsed : parsed.2 = none)
    (hfin : filled.finalize = .ok cache') : cache.enforcePolicy parsed addDomain = some (addDomain, cache') := by
  unfold Cache.enforcePolicy
  rw [hfilled, hparsed, bind_some]
  simp only [hfin]
  rfl

theorem enforcePolicy_cases (h : cache.enforcePolicy parsed addDomain = some (ret, cache')) :
    ∃ filled, cache.callbacks parsed.1 = some filled ∧ ((parsed.2.isSome ∧ ret = false ∧ cache' = filled) ∨
       (parsed.2 = none ∧ filled.finalize = .error .einval ∧ ret = false ∧ cache' = filled.finalizedPart) ∨
       (parsed.2 = none ∧ filled.finalize = .ok cache' ∧ ret = addDomain)) := by
  obtain ⟨filled, hfilled, h⟩ := bind_eq_some_iff.1 h
  refine ⟨filled, hfilled, ?_⟩
  split at h
  · cases h
    exact .inl ⟨‹_›, rfl, rfl⟩
  have hparsed : parsed.2 = none := not_isSome_iff_eq_none.1 ‹_›
  split at h
  · cases h
  · cases h
    exact .inr (.inl ⟨hparsed, ‹_›, rfl, rfl⟩)
  · cases h
    exact .inr (.inr ⟨hparsed, ‹_›, rfl⟩)

end

/-! ## How many participants there are -/

section

variable {cache cache' : Cache}

theorem onLast_length : ∀ {ps ps' : List ParticipantDesc}, onLast tag f ps = some (.ok ps') → ps'.length = ps.length
  | [], _, h => by cases h
  | p :: ps, ps', h => by
    unfold onLast at h
    split at h
    · rename_i r hr
      cases r with
      | error e => cases h
      | ok qs =>
        cases h
        rw [length_cons, length_cons, onLast_length hr]
    split at h
    · cases hf : f p with
      | error e =>
        rw [hf] at h
        cases h
      | ok q =>
        rw [hf] at h
        cases h
        rfl
    · cases h

theorem onParticipant_length (cache : Cache) (tag : Name) (f : ParticipantDesc → Except Fail ParticipantDesc) :
    (cache.onParticipant tag f).1.participants.length = cache.participants.length := by
  unfold Cache.onParticipant
  split
  · rfl
  · rfl
  · exact onLast_length ‹_›

theorem withTag_length (hadd : ∀ tag, (add tag).1.participants.length = cache.participants.length)
    (h : cache.withTag tag add = some cache') : cache'.participants.length = cache.participants.length := by
  unfold Cache.withTag at h
  split at h
  · cases h
    exact hadd _
  split at h
  · cases h
    exact hadd _
  · cases h

theorem callback_length (hc : isNumber c = false) (h : cache.callback c = some cache') :
    cache'.participants.length = cache.participants.length + if isParticipant c then 1 else 0 := by
  cases c with
  | sequenceNumber n => cases hc
  | participant tag =>
    cases h
    exact length_append
  | coarseGrainedRule | fineGrainedRuleSection =>
    refine withTag_length (fun t => ?_) h
    exact onParticipant_length _ _ _

theorem callbacks_length : ∀ {cs : List Callback} {cache cache' : Cache}, (∀ c ∈ cs, isNumber c = false) →
    cache.callbacks cs = some cache' → cache'.participants.length = cache.participants.length + cs.countP isParticipant
  | [], _, _, _, h => by
    cases h
    rfl
  | c :: cs, cache, cache', hn, h => by
    obtain ⟨cache1, h1, h2⟩ := bind_eq_some_iff.1 (show (cache.callback c).bind (·.callbacks cs) = _ from h)
    rw [callbacks_length (fun c' hc' => hn c' (mem_cons_of_mem _ hc')) h2,
      callback_length (hn c mem_cons_self) h1, countP_cons]
    omega

theorem finalizedPart_length (cache : Cache) :
    cache.finalizedPart.participants.length = cache.participants.length := by
  have hlen (tags : List Name) (topics : List TopicDesc) (ps : List ParticipantDesc) :
      (completedParts tags topics ps).length = ps.length := by
    induction ps with
    | nil => rfl
    | cons p ps ih =>
      unfold completedParts
      split
      · rw [length_cons, ih, length_cons]
      · rfl
  exact hlen _ _ _

theorem finalize_length (h : cache.finalize = .ok cache') :
    cache'.participants.length = cache.participants.length := by
  unfold Cache.finalize at h
  dsimp only at h
  generalize hps : (List.mapM _ cache.participants : Except Fail (List ParticipantDesc)) = r at h
  cases r with
  | error e => cases h
  | ok ps =>
    cases h
    exact (forall₂_of_mapM hps).length_eq.symm

end

/-! ## When an update is all or nothing

The number empties the cache in use, so that all or nothing needs a text that starts with its number and goes through to
the end.
-/

open Security.Cache

variable {cs : List Callback} {cache : Cache} {c : Callback}

/-! ## What the law says -/

/-- The cache has the completed rules of the text and nothing else, and the number and the content are the new ones. -/
def Handle.HasPolicy (h : Handle) (u : Update) (body : List Char) : Prop :=
  (∃ rules, empty.callbacks ((u.parsed body).1.filter (!isNumber ·)) = some rules ∧ rules.finalize = .ok h.cache) ∧
    h.seqnr = sequenceNumberOf (u.parsed body).1 ∧ h.content = u.content

open Handle

def Handle.Enforced (h : Handle) : Prop := ∃ (h0 : Handle) (u : Update), h0.updatePolicy u = some (true, h)

def Handle.AllOrNothing (h : Handle) (u : Update) : Prop :=
  ∃ ret h', h.updatePolicy u = some (ret, h') ∧
    (ret = false → h' = h) ∧ (ret = true → ∃ body, u.body = some body ∧ h'.HasPolicy u body)

def numberFirst (cs : List Callback) : Bool := cs.head?.any isNumber && (cs.dropWhile isNumber).all (!isNumber ·)

/-- The text is given up before anything in it is called back for, or it starts with its number, all of it is right, its
rules can be completed on their own, and the domain can be added. -/
def Update.Clean (u : Update) : Prop :=
  u.credentials = true → ∀ body, u.body = some body → ((u.parsed body).2.isSome ∧ (u.parsed body).1 = []) ∨
    ((u.parsed body).2 = none ∧ numberFirst (u.parsed body).1 = true ∧ u.addDomain = true ∧
      ∃ rules cache, empty.callbacks ((u.parsed body).1.dropWhile isNumber) = some rules ∧
        rules.finalize = .ok cache)

/-! ## Numbers empty the cache -/

theorem callbacks_append (cache : Cache) (cs ds : List Callback) :
    cache.callbacks (cs ++ ds) = (cache.callbacks cs).bind (·.callbacks ds) := foldlM_append

theorem callbacks_cons (cache : Cache) (c : Callback) (cs : List Callback) :
    cache.callbacks (c :: cs) = (cache.callback c).bind (·.callbacks cs) := rfl

theorem callback_number (hc : isNumber c = true) (cache : Cache) : cache.callback c = some empty := by
  cases c with
  | sequenceNumber n => rfl
  | _ => cases hc

theorem callbacks_numbers : ∀ {cs : List Callback}, cs ≠ [] → (∀ c ∈ cs, isNumber c = true) → ∀ cache : Cache,
    cache.callbacks cs = some empty
  | [], h, _, _ => absurd rfl h
  | c :: cs, _, hn, cache => by
    rw [callbacks_cons, callback_number (hn c mem_cons_self)]
    by_cases hcs : cs = []
    · rw [hcs]
      rfl
    · exact callbacks_numbers hcs (fun c' hc' => hn c' (mem_cons_of_mem _ hc')) _

theorem exists_last_number : ∀ {cs : List Callback}, (∃ c ∈ cs, isNumber c = true) →
    ∃ pre c post, cs = pre ++ c :: post ∧ isNumber c = true ∧ ∀ d ∈ post, isNumber d = false
  | [], ⟨_, h, _⟩ => by cases h
  | c :: cs, hc => by
    by_cases h : ∃ d ∈ cs, isNumber d = true
    · obtain ⟨pre, d, post, rfl, hd⟩ := exists_last_number h
      exact ⟨c :: pre, d, post, rfl, hd⟩
    obtain ⟨d, hd, hn⟩ := hc
    have hpost : ∀ e ∈ cs, isNumber e = false := fun e he => eq_false_of_ne_true fun hen => h ⟨e, he, hen⟩
    rcases mem_cons.1 hd with rfl | hd
    · exact ⟨[], d, cs, rfl, hn, hpost⟩
    · exact absurd ⟨d, hd, hn⟩ h

theorem callbacks_after_number (hc : isNumber c = true)
    (h : cache.callbacks (pre ++ c :: post) = some cache') : empty.callbacks post = some cache' := by
  rw [callbacks_append] at h
  obtain ⟨_, _, h⟩ := bind_eq_some_iff.1 h
  rwa [callbacks_cons, callback_number hc] at h

theorem filter_dropWhile (h : numberFirst cs = true) : cs.filter (!isNumber ·) = cs.dropWhile isNumber := by
  obtain ⟨_, hrest⟩ := Bool.and_eq_true_iff.1 h
  have hsplit := congrArg (List.filter (!isNumber ·)) (takeWhile_append_dropWhile (p := isNumber) (l := cs))
  have hnumbers : (cs.takeWhile isNumber).filter (!isNumber ·) = [] := by
    refine filter_eq_nil_iff.2 fun c hc => ?_
    rw [mem_takeWhile_imp hc]
    decide
  have hrules : (cs.dropWhile isNumber).filter (!isNumber ·) = cs.dropWhile isNumber :=
    filter_eq_self.2 (all_eq_true.1 hrest)
  rw [filter_append, hnumbers, hrules] at hsplit
  exact hsplit.symm

theorem callbacks_numberFirst (h : numberFirst cs = true) (cache : Cache) :
    cache.callbacks cs = empty.callbacks (cs.dropWhile isNumber) := by
  obtain ⟨hhead, _⟩ := Bool.and_eq_true_iff.1 h
  have hne : cs.takeWhile isNumber ≠ [] := by
    cases cs with
    | nil => cases hhead
    | cons c cs =>
      rw [takeWhile_cons_of_pos (show isNumber c = true from hhead)]
      exact nofun
  have hall := callbacks_append cache (cs.takeWhile isNumber) (cs.dropWhile isNumber)
  rw [takeWhile_append_dropWhile, callbacks_numbers hne fun c hc => mem_takeWhile_imp hc] at hall
  exact hall

/-! ## A clean update -/

theorem allOrNothing_of_clean (hu : u.Clean) (h : Handle) : h.AllOrNothing u := by
  unfold AllOrNothing updatePolicy
  by_cases hcred : u.credentials = true
  · rw [if_pos hcred]
    cases hbody : u.body with
    | none => exact ⟨false, h, rfl, fun _ => rfl, by simp⟩
    | some body =>
      rcases hu hcred body hbody with ⟨hfail, hnil⟩ | ⟨hparsed, hfirst, hdomain, rules, cache, hrules, hfin⟩
      · refine ⟨false, h, ?_, fun _ => rfl, by simp⟩
        simp only [enforcePolicy, hnil, hfail]
        rfl
      refine ⟨true, ⟨cache, sequenceNumberOf (u.parsed body).1, u.content⟩, ?_, by simp, fun _ => ?_⟩
      · rw [← callbacks_numberFirst hfirst h.cache] at hrules
        simp only [enforcePolicy_ok hrules hparsed hfin, hdomain]
        rfl
      · refine ⟨body, rfl, ⟨rules, ?_, hfin⟩, rfl, rfl⟩
        rw [filter_dropWhile hfirst]
        exact hrules
  · rw [if_neg hcred]
    exact ⟨false, h, rfl, fun _ => rfl, by simp⟩

/-! ## Two policies that are enforced -/

def Handle.initial : Handle := ⟨empty, 0, []⟩

def Update.ofText (text : String) : Update := ⟨text.toList, true, some text.toList, [], true⟩

def oneParticipant : Update := .ofText "[meta]\nseqnr=1\n[uid:1]\nab*=r<uid:1>\nabc=r<uid:2>\n"

def twoParticipants : Update := .ofText "[meta]\nseqnr=1\n[uid:1]\na=r\n[uid:2]\na=w\n"

def afterOne : Handle := ((initial.updatePolicy oneParticipant).get (by decide)).2

def afterTwo : Handle := ((initial.updatePolicy twoParticipants).get (by decide)).2

theorem enforced_afterOne : afterOne.Enforced := ⟨.initial, oneParticipant, by decide⟩

theorem enforced_afterTwo : afterTwo.Enforced := ⟨.initial, twoParticipants, by decide⟩

/-! ## Nothing else is -/

section

variable {u : Update} {body : List Char}

theorem enforce_of_allOrNothing (hcred : u.credentials = true) (hbody : u.body = some body) {h : Handle}
    (hall : h.AllOrNothing u) : ∃ ret cache, h.cache.enforcePolicy (u.parsed body) u.addDomain = some (ret, cache) ∧
      (ret = false → cache = h.cache) ∧
      (ret = true → ∃ rules, empty.callbacks ((u.parsed body).1.filter (!isNumber ·)) = some rules ∧
        rules.finalize = .ok cache) := by
  obtain ⟨ret, h', hupd, hfalse, htrue⟩ := hall
  unfold updatePolicy at hupd
  rw [if_pos hcred, hbody] at hupd
  obtain ⟨⟨ret', cache⟩, henf, hres⟩ := map_eq_some_iff.1 hupd
  refine ⟨ret', cache, henf, ?_, ?_⟩
  · rintro rfl
    obtain ⟨rfl, rfl⟩ := Prod.mk.inj hres
    exact congrArg Handle.cache (hfalse rfl)
  rintro rfl
  obtain ⟨rfl, rfl⟩ := Prod.mk.inj hres
  obtain ⟨body', hbody', hrules, _⟩ := htrue rfl
  obtain rfl : body = body' := some.inj (hbody.symm.trans hbody')
  exact hrules

theorem enforcePolicy_length
    (hn : ∀ c ∈ parsed.1, isNumber c = false) (h : cache.enforcePolicy parsed addDomain = some (ret, cache')) :
    cache'.participants.length = cache.participants.length + parsed.1.countP isParticipant := by
  obtain ⟨filled, hfilled, hcases⟩ := enforcePolicy_cases h
  rw [← callbacks_length hn hfilled]
  rcases hcases with ⟨_, _, rfl⟩ | ⟨_, _, _, rfl⟩ | ⟨_, hfin, _⟩
  · rfl
  · exact finalizedPart_length filled
  · exact finalize_length hfin

theorem countP_filter_rules (cs : List Callback) :
    (cs.filter (!isNumber ·)).countP isParticipant = cs.countP isParticipant := by
  rw [countP_filter]
  refine countP_congr fun c _ => ?_
  cases c <;> simp [isParticipant, isNumber]

theorem rules_length
    (hrules : empty.callbacks (cs.filter (!isNumber ·)) = some rules) (hfin : rules.finalize = .ok cache) :
    cache.participants.length = cs.countP isParticipant := by
  have hn : ∀ c ∈ cs.filter (!isNumber ·), isNumber c = false := by simp
  rw [finalize_length hfin, callbacks_length hn hrules, countP_filter_rules]
  exact Nat.zero_add _

theorem callbacks_tagless (hc : ruleTag c = some none)
    (hne : cache.participants ≠ []) : cache.callbacks (c :: cs) = none := by
  rw [callbacks_cons]
  cases c with
  | sequenceNumber n => cases hc
  | participant tag => cases hc
  | coarseGrainedRule tag topic perms | fineGrainedRuleSection tag topic participant perms =>
    cases hc
    rw [callback, withTag, if_neg hne]
    rfl

theorem first_is_participant (hne : cache.participants ≠ [])
    (hfilled : cache.callbacks (u.parsed body).1 = some filled) :
    ∀ c ∈ (u.parsed body).1.find? (!isNumber ·), isParticipant c = true := by
  rcases parseLines_start _ with ⟨c, cs, hcs, htag⟩ | hfirst
  · rw [Update.parsed, policyParserRun, hcs, callbacks_tagless htag hne] at hfilled
    cases hfilled
  · exact hfirst

theorem clean_of_no_number (hn : ∀ c ∈ (u.parsed body).1, isNumber c = false) (hcred : u.credentials = true)
    (hbody : u.body = some body) (hall : afterOne.AllOrNothing u) :
    (u.parsed body).2.isSome ∧ (u.parsed body).1 = [] := by
  obtain ⟨ret, cache, henf, hfalse, htrue⟩ := enforce_of_allOrNothing hcred hbody hall
  have hlen := enforcePolicy_length hn henf
  have hone : afterOne.cache.participants.length = 1 := by decide
  cases ret with
  | true =>
    obtain ⟨rules, hrules, hfin⟩ := htrue rfl
    rw [rules_length hrules hfin] at hlen
    omega
  | false =>
    obtain rfl := hfalse rfl
    obtain ⟨filled, hfilled, hcases⟩ := enforcePolicy_cases henf
    have hnil : (u.parsed body).1 = [] := by
      have hfirst := first_is_participant (by decide) hfilled
      cases hcs : (u.parsed body).1 with
      | nil => rfl
      | cons c cs =>
        rw [hcs] at hfirst hn hlen
        have hc : isParticipant c = true := by
          refine hfirst c ?_
          rw [find?_cons_of_pos (by simp [hn c mem_cons_self])]
          rfl
        rw [countP_cons_of_pos hc] at hlen
        omega
    rw [hnil] at hfilled
    obtain rfl : afterOne.cache = filled := some.inj hfilled
    rcases hcases with ⟨hfail, _⟩ | ⟨_, hfin, _⟩ | ⟨_, hfin, _⟩
    · exact ⟨hfail, hnil⟩
    · exact absurd hfin (by decide)
    · exact absurd hfin (by decide)

theorem numberFirst_of_count (hc : isNumber c = true)
    (hpost : ∀ d ∈ post, isNumber d = false) (hpre : pre.countP isParticipant = 0)
    (hfirst : ∀ d ∈ (pre ++ c :: post).find? (!isNumber ·), isParticipant d = true) :
    numberFirst (pre ++ c :: post) = true := by
  have hnumbers : ∀ d ∈ pre, isNumber d = true := by
    intro d hd
    by_contra hdn
    have hsome : (pre.find? (!isNumber ·)).isSome := find?_isSome.2 ⟨d, hd, by simpa using hdn⟩
    obtain ⟨e, he⟩ := isSome_iff_exists.1 hsome
    have hpart : isParticipant e = true := hfirst e (by rw [find?_append, he]; rfl)
    exact countP_eq_zero.1 hpre e (mem_of_find?_eq_some he) hpart
  unfold numberFirst
  rw [Bool.and_eq_true_iff]
  constructor
  · cases pre with
    | nil => exact hc
    | cons d pre => exact hnumbers d mem_cons_self
  rw [dropWhile_append_of_pos hnumbers, dropWhile_cons_of_pos hc]
  refine all_eq_true.2 fun d hd => ?_
  rw [hpost d ((dropWhile_suffix _).subset hd)]
  rfl

/-- After a number the outcome does not depend on what was enforced, so the update cannot give it back. -/
theorem clean_of_number (hn : ∃ c ∈ (u.parsed body).1, isNumber c = true) (hcred : u.credentials = true)
    (hbody : u.body = some body) (hone : afterOne.AllOrNothing u) (htwo : afterTwo.AllOrNothing u) :
    (u.parsed body).2 = none ∧ numberFirst (u.parsed body).1 = true ∧ u.addDomain = true ∧
      ∃ rules cache, empty.callbacks ((u.parsed body).1.dropWhile isNumber) = some rules ∧
        rules.finalize = .ok cache := by
  obtain ⟨ret, cache, henf, hfalse, htrue⟩ := enforce_of_allOrNothing hcred hbody hone
  obtain ⟨ret2, cache2, henf2, hfalse2, _⟩ := enforce_of_allOrNothing hcred hbody htwo
  obtain ⟨filled, hfilled, hcases⟩ := enforcePolicy_cases henf
  obtain ⟨filled2, hfilled₂, _⟩ := enforcePolicy_cases henf2
  obtain ⟨pre, c, post, hcs, hc, hpost⟩ := exists_last_number hn
  have hafter := callbacks_after_number hc (hcs ▸ hfilled)
  have hafter2 := callbacks_after_number hc (hcs ▸ hfilled₂)
  have hsame : afterOne.cache.callbacks (u.parsed body).1 = afterTwo.cache.callbacks (u.parsed body).1 := by
    rw [hfilled, hfilled₂, ← hafter, ← hafter2]
  unfold enforcePolicy at henf henf2
  rw [hsame, henf2] at henf
  obtain ⟨rfl, rfl⟩ := Prod.mk.inj (some.inj henf)
  cases ret2 with
  | false => exact absurd ((hfalse rfl).symm.trans (hfalse2 rfl)) (by decide)
  | true =>
    obtain ⟨rules, hrules, hrfin⟩ := htrue rfl
    rcases hcases with ⟨_, hret, _⟩ | ⟨_, _, hret, _⟩ | ⟨hparsed, hfin, hdomain⟩
    · cases hret
    · cases hret
    have hlen := finalize_length hfin
    rw [rules_length hrules hrfin, callbacks_length hpost hafter, hcs, countP_append, countP_cons] at hlen
    have hpre : pre.countP isParticipant = 0 := by
      simp only [empty, length_nil] at hlen
      omega
    have hfirst : numberFirst (u.parsed body).1 = true := by
      have h := first_is_participant (by decide) hfilled
      rw [hcs] at h ⊢
      exact numberFirst_of_count hc hpost hpre h
    rw [filter_dropWhile hfirst] at hrules
    exact ⟨hparsed, hfirst, hdomain.symm, rules, _, hrules, hrfin⟩

end

/-- **An update is all or nothing, whatever is enforced, exactly when it is clean.** -/
theorem allOrNothing_iff (u : Update) : (∀ h : Handle, h.Enforced → h.AllOrNothing u) ↔ u.Clean := by
  constructor
  · intro hall hcred body hbody
    have hone := hall afterOne enforced_afterOne
    by_cases hn : ∃ c ∈ (u.parsed body).1, isNumber c = true
    · exact .inr (clean_of_number hn hcred hbody hone (hall afterTwo enforced_afterTwo))
    · refine .inl (clean_of_no_number (fun c hc => eq_false_of_ne_true fun h => hn ⟨c, hc, h⟩) hcred hbody hone)
  · exact fun hu h _ => allOrNothing_of_clean hu h

def broken : Update := .ofText "[meta]\nversion=1.0\nseqnr=2\n[uid:1]\na\n"

/-- **The rules are gone.**  The update fails and the number and the content are the old ones, but the cache has been
emptied, and filled up to the line that is wrong. -/
theorem not_allOrNothing :
    afterTwo.Enforced ∧ (∃ p ∈ afterTwo.cache.participants, p.ruleEntries ≠ []) ∧
      (∃ h', afterTwo.updatePolicy broken = some (false, h') ∧ ∀ p ∈ h'.cache.participants, p.ruleEntries = []) ∧
      ¬ afterTwo.AllOrNothing broken := by
  have hupdate : afterTwo.updatePolicy broken =
      some (false, { afterTwo with cache := ⟨[], [⟨['u', 'i', 'd', ':', '1'], []⟩]⟩ }) := by decide
  refine ⟨enforced_afterTwo, by decide, ⟨_, hupdate, by decide⟩, ?_⟩
  rintro ⟨ret, h', hupd, hfalse, -⟩
  rw [hupdate] at hupd
  cases hupd
  exact absurd (congrArg Handle.cache (hfalse rfl)) (by decide)

end Qeo.Security
