import QeoCore.PolicyDecide
/-!
# PolicyLeak — whether a report for one participant shows another one's rights

The mask of a report is not cleared between the participants, so a coarse grained rule is reported with the rights of
the participants before it added.
-/
namespace Qeo.Security

open List Prod

def Perms.Within (a b : Perms) : Prop := ∀ d, a.get d = true → b.get d = true

def Perms.union (a b : Perms) : Perms := ⟨a.read || b.read, a.write || b.write⟩

def ownMask (sel : Perms) : RuleU → Perms
  | .coarse none => ⟨false, false⟩
  | .coarse (some perms) => ⟨perms.read && sel.read, perms.write && sel.write⟩
  | .fine _ _ => sel

def RuleU.lists : RuleU → Option (List Name × List Name)
  | coarse _ => none
  | fine read write => some (read, write)

def ParticipantDesc.entriesFor (participantId topicName : Option Name) (part : ParticipantDesc) : List RuleEntry :=
  if participantId.all (· == part.tag) then
    match topicName with
    | some t => (findMatch part.ruleEntries t).toList.map fst
    | none => part.ruleEntries
  else []

def ParticipantDesc.alone (participantId topicName : Option Name) (sel : Perms) (part : ParticipantDesc) :
    Except Fail (List Report) :=
  (reportParticipant participantId topicName sel ⟨false, false⟩ part).map fst

def Cache.reportsFor (cache : Cache) (tag : Name) (participantId topicName : Option Name) (sel : Perms) :
    Except Fail (List Report) :=
  (cache.getTopicRules participantId topicName sel).map (·.filter (·.participantTag == tag))

section

variable {a b c sel : Perms} {l : List ParticipantDesc} {part : ParticipantDesc}

namespace Perms

theorem union_eq_right : a.union b = b ↔ a.Within b := by
  obtain ⟨ar, aw⟩ := a
  obtain ⟨br, bw⟩ := b
  constructor
  · intro h d hd
    obtain ⟨h1, h2⟩ := Perms.mk.inj h
    cases d
    · simp only [get] at hd ⊢
      simpa [hd] using h1.symm
    · simp only [get] at hd ⊢
      simpa [hd] using h2.symm
  intro h
  have h1 := h .read
  have h2 := h .write
  simp only [get] at h1 h2
  simp only [union, Perms.mk.injEq]
  constructor
  · cases ar <;> simp_all
  · cases aw <;> simp_all

theorem union_within : (a.union b).Within c ↔ a.Within c ∧ b.Within c := by
  constructor
  · refine fun h => ⟨fun d hd => h d ?_, fun d hd => h d ?_⟩ <;> cases d <;> simp_all [union, get]
  · rintro ⟨ha, hb⟩ d hd
    have hd : a.get d = true ∨ b.get d = true := by cases d <;> simpa [union, get] using hd
    exact hd.elim (ha d) (hb d)

theorem empty_within : (⟨false, false⟩ : Perms).Within a := by
  intro d hd
  cases d <;> simp [get] at hd

end Perms

theorem ownMask_within (u : RuleU) : (ownMask sel u).Within sel := by
  intro d hd
  match u with
  | .coarse none => cases d <;> simp [ownMask, Perms.get] at hd
  | .coarse (some perms) => cases d <;> simp_all [ownMask, Perms.get]
  | .fine _ _ => exact hd

end

/-! ## One entry, one participant -/

section

variable {tag t : Name} {sel mask : Perms} {u : RuleU}

/-- **The mask of a report is the rule's own together with the one handed on**, which never exceeds the selector. -/
theorem reportEntry_mask (hu : u ≠ .coarse none) (hm : mask.Within sel) :
    reportEntry tag t sel mask u = .ok
      (if mask.union (ownMask sel u) = ⟨false, false⟩ then [] else [⟨tag, t, mask.union (ownMask sel u), u.lists⟩],
        mask.union (ownMask sel u)) := by
  match u with
  | .coarse none => exact absurd rfl hu
  | .coarse (some perms) => rfl
  | .fine read write =>
    have hsel : mask.union sel = sel := Perms.union_eq_right.2 hm
    simp only [ownMask, hsel]
    rfl

theorem tag_of_reportEntry (h : reportEntry tag t sel mask u = .ok (out, m)) :
    ∀ x ∈ out, x.participantTag = tag := by
  intro x hx
  match u with
  | .coarse none => exact absurd h nofun
  | .coarse (some perms) | .fine read write =>
    obtain ⟨rfl, _⟩ := mk.inj (Except.ok.inj h)
    split at hx
    · exact absurd hx (not_mem_nil)
    · rw [mem_singleton.1 hx]

theorem reportAll_cases (tag : Name) (sel : Perms) (es : List RuleEntry) :
    ((∀ e ∈ es, e.u ≠ .coarse none) ∧ ∃ out, reportAll tag sel ⟨false, false⟩ es = .ok (out, ⟨false, false⟩) ∧
      ∀ x ∈ out, x.participantTag = tag) ∨
    ((∃ e ∈ es, e.u = .coarse none) ∧ reportAll tag sel ⟨false, false⟩ es = .error .fault) := by
  induction es with
  | nil => exact .inl ⟨by simp, [], rfl, by simp⟩
  | cons e es ih =>
    unfold reportAll
    by_cases hu : e.u = .coarse none
    · refine .inr ⟨⟨e, mem_cons_self .., hu⟩, ?_⟩
      rw [hu]
      rfl
    have he := @reportEntry_mask tag e.topic sel ⟨false, false⟩ e.u hu Perms.empty_within
    have htag := tag_of_reportEntry he
    rw [he]
    rcases ih with ⟨hall, out, hout, hx⟩ | ⟨⟨e', he', hu'⟩, herr⟩
    · refine .inl ⟨?_, _ ++ out, ?_, fun x hx' => (mem_append.1 hx').elim (htag x) (hx x)⟩
      · intro e' he'
        rcases mem_cons.1 he' with rfl | he'
        · exact hu
        · exact hall e' he'
      · rw [hout]
        rfl
    · refine .inr ⟨⟨e', mem_cons_of_mem _ he', hu'⟩, ?_⟩
      rw [herr]
      rfl

end

/-! ## The loop over the participants -/

section

variable {pid tn : Option Name} {sel : Perms}

theorem tag_of_reportParticipant
    (hm : tn = none → mask = ⟨false, false⟩) (h : reportParticipant pid tn sel mask part = .ok (out, m)) :
    (∀ x ∈ out, x.participantTag = part.tag) ∧ (tn = none → m = ⟨false, false⟩) := by
  unfold reportParticipant at h
  split at h
  · cases tn with
    | some t =>
      refine ⟨?_, nofun⟩
      simp only at h
      split at h
      · exact tag_of_reportEntry h
      · obtain ⟨rfl, _⟩ := mk.inj (Except.ok.inj h)
        simp
    | none =>
      simp only [hm rfl] at h
      rcases reportAll_cases part.tag sel part.ruleEntries with ⟨_, out', hout, hx⟩ | ⟨_, herr⟩
      · obtain ⟨rfl, rfl⟩ := mk.inj (Except.ok.inj (hout.symm.trans h))
        exact ⟨hx, fun _ => rfl⟩
      · exact absurd (herr.symm.trans h) nofun
  · obtain ⟨rfl, rfl⟩ := mk.inj (Except.ok.inj h)
    exact ⟨by simp, hm⟩

def Harmless (pid tn : Option Name) (sel : Perms) : Perms → List ParticipantDesc → Prop
  | _, [] => True
  | mask, part :: l => ∃ out m m0, reportParticipant pid tn sel mask part = .ok (out, m) ∧
      reportParticipant pid tn sel ⟨false, false⟩ part = .ok (out, m0) ∧ Harmless pid tn sel m l

theorem reportParticipants_cons (h : reportParticipant pid tn sel mask part = .ok (out, m)) (l : List ParticipantDesc) :
    reportParticipants pid tn sel mask (part :: l) = (reportParticipants pid tn sel m l).map (out ++ ·) := by
  rw [reportParticipants, h]
  show (do return out ++ (← reportParticipants pid tn sel m l)) = _
  cases reportParticipants pid tn sel m l <;> rfl

theorem tags_of_reportParticipants
    (hm : tn = none → mask = ⟨false, false⟩) (h : reportParticipants pid tn sel mask l = .ok out) :
    ∀ x ∈ out, x.participantTag ∈ l.map ParticipantDesc.tag := by
  induction l generalizing mask out with
  | nil =>
    cases h
    simp
  | cons part l ih =>
    cases hp : reportParticipant pid tn sel mask part with
    | error e =>
      rw [reportParticipants, hp] at h
      cases h
    | ok om =>
      rw [reportParticipants_cons hp] at h
      obtain ⟨htag, hm'⟩ := tag_of_reportParticipant hm hp
      cases hr : reportParticipants pid tn sel om.2 l with
      | error e =>
        rw [hr] at h
        cases h
      | ok rest =>
        rw [hr] at h
        cases h
        intro x hx
        rcases mem_append.1 hx with hx | hx
        · exact htag x hx ▸ mem_cons_self ..
        · exact mem_cons_of_mem _ (ih hm' hr x hx)

theorem filter_eq_self_of_tag {out : List Report} (h : ∀ x ∈ out, x.participantTag = tag) :
    out.filter (·.participantTag == tag) = out := filter_eq_self.2 fun x hx => by simpa using h x hx

theorem filter_eq_nil_of_tag {out : List Report} {tag : Name} (h : ∀ x ∈ out, x.participantTag ≠ tag) :
    out.filter (·.participantTag == tag) = [] := filter_eq_nil_iff.2 fun x hx => by simpa using h x hx

/-- **The loop reports for each participant what that one is reported alone exactly if no mask that is handed on does
harm.** -/
theorem harmless_iff (hn : (l.map ParticipantDesc.tag).Nodup) (hm : tn = none → mask = ⟨false, false⟩) :
    (∃ out, reportParticipants pid tn sel mask l = .ok out ∧ ∀ part ∈ l,
      part.alone pid tn sel = .ok (out.filter (·.participantTag == part.tag))) ↔ Harmless pid tn sel mask l := by
  induction l generalizing mask with
  | nil => exact ⟨fun _ => trivial, fun _ => ⟨[], rfl, by simp⟩⟩
  | cons part l ih =>
    rw [map_cons, nodup_cons] at hn
    have hother : ∀ {m : Perms} {rest : List Report}, (tn = none → m = ⟨false, false⟩) →
        reportParticipants pid tn sel m l = .ok rest → ∀ x ∈ rest, x.participantTag ≠ part.tag :=
      fun hm hr x hx he => hn.1 (he ▸ tags_of_reportParticipants hm hr x hx)
    constructor
    · rintro ⟨out, hout, hall⟩
      cases hp : reportParticipant pid tn sel mask part with
      | error e =>
        rw [reportParticipants, hp] at hout
        cases hout
      | ok om =>
        obtain ⟨htag, hm'⟩ := tag_of_reportParticipant hm hp
        rw [reportParticipants_cons hp] at hout
        cases hr : reportParticipants pid tn sel om.2 l with
        | error e =>
          rw [hr] at hout
          cases hout
        | ok rest =>
          rw [hr] at hout
          cases hout
          have hself := hall part (mem_cons_self ..)
          rw [filter_append, filter_eq_self_of_tag htag, filter_eq_nil_of_tag (hother hm' hr), append_nil] at hself
          cases h0 : reportParticipant pid tn sel ⟨false, false⟩ part with
          | error e =>
            rw [ParticipantDesc.alone, h0] at hself
            cases hself
          | ok om0 =>
            obtain ⟨out0, m0⟩ := om0
            rw [ParticipantDesc.alone, h0] at hself
            obtain rfl : out0 = om.1 := Except.ok.inj hself
            refine ⟨om.1, om.2, m0, hp, h0, (ih hn.2 hm').1 ⟨rest, hr, fun q hq => ?_⟩⟩
            rw [hall q (mem_cons_of_mem _ hq), filter_append, filter_eq_nil_of_tag, nil_append]
            intro x hx he
            exact hn.1 ((htag x hx).symm.trans he ▸ mem_map_of_mem hq)
    rintro ⟨out, m, m0, hp, h0, hh⟩
    obtain ⟨htag, hm'⟩ := tag_of_reportParticipant hm hp
    obtain ⟨rest, hr, hall⟩ := (ih hn.2 hm').2 hh
    refine ⟨out ++ rest, by rw [reportParticipants_cons hp, hr]; rfl, fun q hq => ?_⟩
    rw [filter_append]
    rcases mem_cons.1 hq with rfl | hq
    · rw [filter_eq_self_of_tag htag, filter_eq_nil_of_tag (hother hm' hr), append_nil, ParticipantDesc.alone, h0]
      rfl
    · rw [hall q hq, @filter_eq_nil_of_tag out q.tag, nil_append]
      intro x hx he
      exact hn.1 ((htag x hx).symm.trans he ▸ mem_map_of_mem hq)

end

/-! ## When masks do no harm -/

def Intact (pid tn : Option Name) (l : List ParticipantDesc) : Prop :=
  ∀ part ∈ l, ∀ e ∈ part.entriesFor pid tn, e.u ≠ .coarse none

instance decidableIntact (pid tn : Option Name) (l : List ParticipantDesc) : Decidable (Intact pid tn l) :=
  inferInstanceAs (Decidable (∀ part ∈ l, ∀ e ∈ part.entriesFor pid tn, e.u ≠ .coarse none))

/-- The entries that a query reads of a participant add nothing to what it reads of a later one. -/
def AddsNothing (pid tn : Option Name) (sel : Perms) (q part : ParticipantDesc) : Prop :=
  ∀ e' ∈ q.entriesFor pid tn, ∀ e ∈ part.entriesFor pid tn, ∀ perms, e.u = .coarse (some perms) →
    (ownMask sel e'.u).Within (ownMask sel e.u)

/-- A query about a topic for all participants: one whose rule is coarse grained has the selected rights of all before
it. -/
def NoCarry (pid tn : Option Name) (sel : Perms) (l : List ParticipantDesc) : Prop :=
  pid = none → tn ≠ none → l.Pairwise (AddsNothing pid tn sel)

section

variable {pid tn : Option Name} {sel : Perms} {t tag : Name}

theorem intact_cons :
    Intact pid tn (part :: l) ↔ (∀ e ∈ part.entriesFor pid tn, e.u ≠ .coarse none) ∧ Intact pid tn l :=
  forall_mem_cons

theorem harmless_all (l : List ParticipantDesc) : Harmless pid none sel ⟨false, false⟩ l ↔ Intact pid none l := by
  induction l with
  | nil => exact ⟨fun _ => by simp [Intact], fun _ => trivial⟩
  | cons part l ih =>
    rw [intact_cons, Harmless, ← ih]
    unfold ParticipantDesc.entriesFor reportParticipant
    by_cases hsel : pid.all (· == part.tag) = true
    · simp only [hsel, if_true]
      rcases reportAll_cases part.tag sel part.ruleEntries with ⟨hall, out, hout, _⟩ | ⟨⟨e, he, hu⟩, herr⟩
      · rw [hout]
        simpa using fun _ => hall
      · rw [herr]
        exact ⟨fun ⟨_, _, _, h, _⟩ => absurd h nofun, fun ⟨hall, _⟩ => absurd hu (hall e he)⟩
    · simp [hsel]

theorem harmless_of_not_selected (h : ∀ part ∈ l, part.tag ≠ tag) (mask : Perms) :
    Harmless (some tag) tn sel mask l := by
  induction l with
  | nil => trivial
  | cons part l ih =>
    have hsel : (some tag).all (· == part.tag) = false := by simpa using Ne.symm (h part (mem_cons_self ..))
    refine ⟨[], mask, ⟨false, false⟩, ?_, ?_, ih (forall_mem_cons.1 h).2⟩
    · simp [reportParticipant, hsel]
    · simp [reportParticipant, hsel]

theorem intact_of_not_selected (h : ∀ part ∈ l, part.tag ≠ tag) : Intact (some tag) tn l := by
  intro part hp
  have hsel : (some tag).all (· == part.tag) = false := by simpa using Ne.symm (h part hp)
  simp [ParticipantDesc.entriesFor, hsel]

theorem reportParticipant_topic (hsel : pid.all (· == part.tag) = true) :
    (part.entriesFor pid (some t) = [] ∧ ∀ mask, reportParticipant pid (some t) sel mask part = .ok ([], mask)) ∨
    ∃ e, part.entriesFor pid (some t) = [e] ∧
      ∀ mask, reportParticipant pid (some t) sel mask part = reportEntry part.tag t sel mask e.u := by
  unfold ParticipantDesc.entriesFor reportParticipant
  simp only [hsel, if_true]
  cases findMatch part.ruleEntries t with
  | none => exact .inl ⟨rfl, fun _ => rfl⟩
  | some e => exact .inr ⟨e.1, rfl, fun _ => rfl⟩

theorem harmless_one (hn : (l.map ParticipantDesc.tag).Nodup) :
    Harmless (some tag) (some t) sel ⟨false, false⟩ l ↔ Intact (some tag) (some t) l := by
  induction l with
  | nil => exact ⟨fun _ => by simp [Intact], fun _ => trivial⟩
  | cons part l ih =>
    rw [map_cons, nodup_cons] at hn
    by_cases htag : part.tag = tag
    · -- the participant asked about is the only one that uses the mask
      have hrest : ∀ q ∈ l, q.tag ≠ tag := fun q hq he => hn.1 (htag.trans he.symm ▸ mem_map_of_mem hq)
      have hsel : (some tag).all (· == part.tag) = true := by simp [htag]
      rw [intact_cons, Harmless]
      rcases @reportParticipant_topic (some tag) sel t part hsel with ⟨he, hr⟩ | ⟨e, he, hr⟩
      · rw [hr, he]
        exact ⟨fun _ => ⟨by simp, intact_of_not_selected hrest⟩,
          fun _ => ⟨[], _, _, rfl, rfl, harmless_of_not_selected hrest _⟩⟩
      rw [hr, he]
      constructor
      · rintro ⟨out, m, _, h1, _⟩
        refine ⟨fun e' he' hu => ?_, intact_of_not_selected hrest⟩
        obtain rfl := mem_singleton.1 he'
        rw [hu] at h1
        cases h1
      · rintro ⟨hu, _⟩
        have h1 := @reportEntry_mask part.tag t sel ⟨false, false⟩ e.u (hu e (mem_singleton.2 rfl))
          Perms.empty_within
        exact ⟨_, _, _, h1, h1, harmless_of_not_selected hrest _⟩
    have hsel : (some tag).all (· == part.tag) = false := by simpa using Ne.symm htag
    have hr : reportParticipant (some tag) (some t) sel ⟨false, false⟩ part = .ok ([], ⟨false, false⟩) := by
      simp [reportParticipant, hsel]
    rw [intact_cons, Harmless, hr, ← ih hn.2]
    simp [ParticipantDesc.entriesFor, hsel]

theorem ite_mask_inj
    (h : (if a = ⟨false, false⟩ then [] else [(⟨tag, t, a, lists⟩ : Report)]) =
      if b = ⟨false, false⟩ then [] else [⟨tag, t, b, lists⟩]) : a = b := by
  by_cases ha : a = ⟨false, false⟩ <;> by_cases hb : b = ⟨false, false⟩
  · rw [ha, hb]
  · simp [ha, hb] at h
  · simp [ha, hb] at h
  · simp only [ha, hb, if_false, List.cons.injEq, Report.mk.injEq] at h
    exact h.1.2.2.1

/-- **One topic, all participants**: the masks handed on do no harm exactly if they add nothing. -/
theorem harmless_carry (hm : mask.Within sel) :
    Harmless none (some t) sel mask l ↔ Intact none (some t) l ∧ l.Pairwise (AddsNothing none (some t) sel) ∧
      ∀ part ∈ l, ∀ e ∈ part.entriesFor none (some t), ∀ perms, e.u = .coarse (some perms) →
        mask.Within (ownMask sel e.u) := by
  induction l generalizing mask with
  | nil => exact ⟨fun _ => ⟨by simp [Intact], .nil, by simp⟩, fun _ => trivial⟩
  | cons part l ih =>
    have hsel : (none : Option Name).all (· == part.tag) = true := rfl
    rw [intact_cons, pairwise_cons, Harmless]
    rcases @reportParticipant_topic none sel t part hsel with ⟨he, hr⟩ | ⟨e, he, hr⟩
    · rw [hr, hr]
      constructor
      · rintro ⟨_, _, _, h1, _, hh⟩
        obtain ⟨rfl, rfl⟩ := mk.inj (Except.ok.inj h1)
        obtain ⟨hi, hp, hw⟩ := (ih hm).1 hh
        refine ⟨⟨by simp [he], hi⟩, ⟨fun q _ e' he' => by simp [he] at he', hp⟩, fun q hq => ?_⟩
        rcases mem_cons.1 hq with rfl | hq
        · simp [he]
        · exact hw q hq
      · rintro ⟨⟨_, hi⟩, ⟨_, hp⟩, hw⟩
        exact ⟨[], _, _, rfl, rfl, (ih hm).2 ⟨hi, hp, (forall_mem_cons.1 hw).2⟩⟩
    rw [hr, hr]
    by_cases hu : e.u = .coarse none
    · rw [hu]
      refine ⟨fun ⟨_, _, _, h, _⟩ => absurd h nofun, fun ⟨⟨hi, _⟩, _⟩ => ?_⟩
      exact absurd hu (hi e (he ▸ mem_singleton.2 rfl))
    have h1 := @reportEntry_mask part.tag t sel mask e.u hu hm
    have h0 := @reportEntry_mask part.tag t sel ⟨false, false⟩ e.u hu Perms.empty_within
    have hm' : (mask.union (ownMask sel e.u)).Within sel := Perms.union_within.2 ⟨hm, ownMask_within _⟩
    constructor
    · rintro ⟨out, m, m0, h1', h0', hh⟩
      obtain ⟨rfl, rfl⟩ := mk.inj (Except.ok.inj (h1.symm.trans h1'))
      have hout := (mk.inj (Except.ok.inj (h0.symm.trans h0'))).1
      have hwithin : mask.Within (ownMask sel e.u) := Perms.union_eq_right.1 (ite_mask_inj hout).symm
      obtain ⟨hi, hp, hw⟩ := (ih hm').1 hh
      refine ⟨⟨by simpa [he] using hu, hi⟩, ⟨fun q hq e' he' x hx perms hc => ?_, hp⟩, fun q hq => ?_⟩
      · obtain rfl : e' = e := mem_singleton.1 (he ▸ he')
        exact (Perms.union_within.1 (hw q hq x hx perms hc)).2
      rcases mem_cons.1 hq with rfl | hq
      · intro x hx _ _
        obtain rfl : x = e := mem_singleton.1 (he ▸ hx)
        exact hwithin
      · exact fun x hx perms hc => (Perms.union_within.1 (hw q hq x hx perms hc)).1
    rintro ⟨⟨_, hi⟩, ⟨hadds, hp⟩, hw⟩
    have hwithin : mask.Within (ownMask sel e.u) := by
      match hc : e.u with
      | .coarse none => exact absurd hc hu
      | .coarse (some perms) => exact hc ▸ hw part (mem_cons_self ..) e (he ▸ mem_singleton.2 rfl) perms hc
      | .fine read write => exact hm
    rw [Perms.union_eq_right.2 hwithin] at h1
    refine ⟨_, _, _, h1, h0, (ih (ownMask_within _)).2 ⟨hi, hp, fun q hq x hx perms hc => ?_⟩⟩
    exact hadds q hq e (he ▸ mem_singleton.2 rfl) x hx perms hc

end

/-! ## The result -/

/-- The query succeeds, and what it reports for a participant is what the participant's own rules make it report. -/
def ReportsOwn (cache : Cache) (pid tn : Option Name) (sel : Perms) : Prop :=
  ∃ out, cache.getTopicRules pid tn sel = .ok out ∧ ∀ part ∈ cache.participants,
    part.alone pid tn sel = .ok (out.filter (·.participantTag == part.tag))

def Separate (cache : Cache) (pid tn : Option Name) (sel : Perms) : Prop :=
  Intact pid tn cache.participants ∧ NoCarry pid tn sel cache.participants

theorem reportsOwn_iff_separate (hn : (cache.participants.map ParticipantDesc.tag).Nodup)
    (pid tn : Option Name) (sel : Perms) : ReportsOwn cache pid tn sel ↔ Separate cache pid tn sel := by
  have h : ReportsOwn cache pid tn sel ↔ Harmless pid tn sel ⟨false, false⟩ cache.participants :=
    harmless_iff hn fun _ => rfl
  rw [h]
  cases tn with
  | none =>
    rw [harmless_all]
    exact ⟨fun hi => ⟨hi, fun _ hne => absurd rfl hne⟩, And.left⟩
  | some t =>
    cases pid with
    | some tag =>
      rw [harmless_one hn]
      exact ⟨fun hi => ⟨hi, nofun⟩, And.left⟩
    | none =>
      rw [harmless_carry Perms.empty_within]
      exact ⟨fun ⟨hi, hp, _⟩ => ⟨hi, fun _ _ => hp⟩,
        fun ⟨hi, hp⟩ => ⟨hi, hp rfl nofun, fun _ _ _ _ _ _ => Perms.empty_within⟩⟩

theorem ReportsOwn.reportsFor (h : ReportsOwn cache pid tn sel) (hp : part ∈ cache.participants) :
    cache.reportsFor part.tag pid tn sel = part.alone pid tn sel := by
  obtain ⟨out, hout, hall⟩ := h
  rw [Cache.reportsFor, hout, hall part hp]
  rfl

theorem complete_tag {policy : Policy} (hp : p ∈ policy.participants)
    (h : policy.complete p = .ok part) : part.tag = p.tag := by
  rcases completeRules_cases policy hp with ⟨_, herr⟩ | ⟨_, part', hok, hc⟩
  · rw [Policy.complete, herr] at h
    cases h
  · rw [Policy.complete, hok] at h
    cases h
    exact hc.1

theorem finalize_tags {policy : Policy} (h : policy.load.finalize = .ok cache) :
    cache.participants.map ParticipantDesc.tag = policy.tags := by
  have key : ∀ {ps : List Participant} {parts : List ParticipantDesc}, (∀ p ∈ ps, p ∈ policy.participants) →
      List.Forall₂ (fun p part => policy.complete p = .ok part) ps parts →
      parts.map ParticipantDesc.tag = ps.map Participant.tag := by
    intro ps parts hmem hf
    induction hf with
    | nil => rfl
    | cons hc _ ih =>
      rw [map_cons, map_cons, complete_tag (hmem _ (mem_cons_self ..)) hc,
        ih (forall_mem_cons.1 hmem).2]
  exact key (fun _ hp => hp) (finalize_ok h).2

theorem completedTopics_eq {policy policy' : Policy}
    (h : ∀ t, t ∈ policy'.completedTopics ↔ t ∈ policy.completedTopics) :
    policy'.completedTopics = policy.completedTopics := by
  refine List.Perm.eq_of_pairwise (fun a b ha hb hab hba => ?_)
    (hashSort_longest_first TopicDesc.name (completeTopics policy'.load.topics))
    (hashSort_longest_first TopicDesc.name (completeTopics policy.load.topics)) ?_
  · exact inj_on_of_nodup_map (completedTopics_nodup policy) ((h a).1 ha) hb (hab.antisymm hba)
  · exact (perm_ext_iff_of_nodup (completedTopics_nodup policy').of_map
      (completedTopics_nodup policy).of_map).2 h

/-- **A query about a finalized policy reports for each participant its own rights exactly if no mask that is handed on
adds anything and what it reads is intact; the rules of the others then do not matter.** -/
theorem reportsOwn_iff {policy : Policy} {cache : Cache} (h : policy.load.finalize = .ok cache)
    (pid tn : Option Name) (sel : Perms) :
    (ReportsOwn cache pid tn sel ↔ Separate cache pid tn sel) ∧
    ∀ (policy' : Policy) (cache' : Cache), policy'.load.finalize = .ok cache' → policy'.tags = policy.tags →
      (∀ t, t ∈ policy'.completedTopics ↔ t ∈ policy.completedTopics) →
      Separate cache pid tn sel → Separate cache' pid tn sel →
      ∀ p ∈ policy.participants, p ∈ policy'.participants →
        cache'.reportsFor p.tag pid tn sel = cache.reportsFor p.tag pid tn sel := by
  have hn : (cache.participants.map ParticipantDesc.tag).Nodup := finalize_tags h ▸ policy.nodup
  refine ⟨reportsOwn_iff_separate hn pid tn sel, fun policy' cache' h' htags htopics hs hs' p hp hp' => ?_⟩
  have hn' : (cache'.participants.map ParticipantDesc.tag).Nodup := finalize_tags h' ▸ policy'.nodup
  obtain ⟨part, hpart, hok⟩ := exists_of_forall₂ (finalize_ok h).2 hp
  obtain ⟨part', hpart', hok'⟩ := exists_of_forall₂ (finalize_ok h').2 hp'
  have hsame : part' = part := by
    have heq : policy'.complete p = policy.complete p := by
      rw [Policy.complete, Policy.complete, htags, completedTopics_eq htopics]
    exact Except.ok.inj (hok'.symm.trans (heq.trans hok))
  rw [← complete_tag hp hok, ((reportsOwn_iff_separate hn pid tn sel).2 hs).reportsFor hpart, ← hsame,
    ((reportsOwn_iff_separate hn' pid tn sel).2 hs').reportsFor hpart']

def unequalUsers : Policy where
  participants := [{ tag := ['u', 'i', 'd', ':', '1'], rules := [(['a'], .coarse ⟨true, true⟩)] },
    { tag := ['u', 'i', 'd', ':', '2'], rules := [(['a'], .coarse ⟨true, false⟩)] }]

def equalUsers : Policy where
  participants := [{ tag := ['u', 'i', 'd', ':', '1'], rules := [(['a'], .coarse ⟨true, false⟩)] },
    { tag := ['u', 'i', 'd', ':', '2'], rules := [(['a'], .coarse ⟨true, false⟩)] }]

theorem reportsOwn_second :
    ReportsOwn ⟨[⟨['a'], true⟩], [⟨['u', 'i', 'd', ':', '1'], [⟨['a'], .coarse (some ⟨true, true⟩)⟩]⟩,
      ⟨['u', 'i', 'd', ':', '2'], [⟨['a'], .coarse (some ⟨true, false⟩)⟩]⟩]⟩
      (some ['u', 'i', 'd', ':', '2']) (some ['a']) ⟨true, true⟩ :=
  ((@reportsOwn_iff unequalUsers _ (by decide) _ _ _).1).2 ⟨by decide, nofun⟩

def overwritten : Policy where
  participants := [
    { tag := ['u', 'i', 'd', ':', '1'],
      rules := [(['a', 'b', '*'], .fine [(.read, ['u', 'i', 'd', ':', '1'])]),
        (['a', 'b', 'c'], .coarse ⟨true, true⟩)] }]

/-- **Asked about a topic for all participants, the second user is reported to write because the first one may; and
asked about all topics of a participant, the program reads a pointer as permissions.** -/
theorem reports_leak :
    (∃ c c', unequalUsers.load.finalize = .ok c ∧ equalUsers.load.finalize = .ok c' ∧ c.topics = c'.topics ∧
      c.reportsFor ['u', 'i', 'd', ':', '2'] none (some ['a']) ⟨true, true⟩ =
        .ok [⟨['u', 'i', 'd', ':', '2'], ['a'], ⟨true, true⟩, none⟩] ∧
      c'.reportsFor ['u', 'i', 'd', ':', '2'] none (some ['a']) ⟨true, true⟩ =
        .ok [⟨['u', 'i', 'd', ':', '2'], ['a'], ⟨true, false⟩, none⟩]) ∧
    ∃ c, overwritten.load.finalize = .ok c ∧
      c.getTopicRules (some ['u', 'i', 'd', ':', '1']) none ⟨true, true⟩ = .error .fault :=
  ⟨⟨⟨[⟨['a'], true⟩], [⟨['u', 'i', 'd', ':', '1'], [⟨['a'], .coarse (some ⟨true, true⟩)⟩]⟩,
      ⟨['u', 'i', 'd', ':', '2'], [⟨['a'], .coarse (some ⟨true, false⟩)⟩]⟩]⟩,
    ⟨[⟨['a'], true⟩], [⟨['u', 'i', 'd', ':', '1'], [⟨['a'], .coarse (some ⟨true, false⟩)⟩]⟩,
      ⟨['u', 'i', 'd', ':', '2'], [⟨['a'], .coarse (some ⟨true, false⟩)⟩]⟩]⟩,
    by decide, by decide, rfl, by decide, by decide⟩,
    ⟨[⟨['a', 'b', '*'], false⟩, ⟨['a', 'b', 'c'], true⟩], [⟨['u', 'i', 'd', ':', '1'],
      [⟨['a', 'b', '*'], .fine [['u', 'i', 'd', ':', '1']] []⟩, ⟨['a', 'b', 'c'], .coarse none⟩]⟩]⟩,
    by decide, by decide⟩

end Qeo.Security
