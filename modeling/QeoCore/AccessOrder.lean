import QeoCore.AccessPolicy
/-!
# AccessOrder — the order in which an update leaves the participants

At its end an update moves, for each number, the first participant with that number to the tail.  A participant of the
policy is hidden if a stale one before it has the number which it gets: then the stale one is moved.
-/
namespace Qeo.Access

open List Bool Participant FirstMatch

def Db.entryFor (db : Db) (v : List PolicyParticipant) (q : PolicyParticipant) : Participant :=
  ((db.merged v).find? (·.name == q.name)).getD (blank 0 q.name)

def Db.stands (db : Db) : List (Name × Nat) := db.participants.map fun p => (p.name, p.inputNumber)

def PolicyUpdate.hides (u : PolicyUpdate) (stands : List (Name × Nat)) (name : Name) : Bool :=
  (slot u.participants name).any fun qi => (stands.takeWhile (·.1 != name)).any fun s =>
    (slot u.participants s.1).isNone && s.2 == 1 + u.participants.length + qi.2

def PolicyUpdate.orderAfter (u : PolicyUpdate) (stands : List (Name × Nat)) : List Name :=
  (stands.map Prod.fst ++ (u.participants.map PolicyParticipant.name).filter fun name =>
      !stands.any (·.1 == name)).filter (u.hides stands) ++
    (u.participants.map PolicyParticipant.name).filter fun name => !u.hides stands name

section

variable {db : Db} {u : PolicyUpdate} {q : PolicyParticipant} {topics : Name → List Rule} {v : List PolicyParticipant}
  {p : Participant}

theorem entryFor_spec (db : Db) (hq : q ∈ v) : (db.merged v).find? (·.name == q.name) = some (db.entryFor v q) := by
  unfold Db.entryFor
  cases hf : (db.merged v).find? (·.name == q.name) with
  | none =>
    obtain ⟨p, hp, hname⟩ := exists_withFresh db hq
    exact absurd hname (by simpa using find?_eq_none.1 hf p hp)
  | some p => rfl

theorem entryFor_name (db : Db) (hq : q ∈ v) : (db.entryFor v q).name = q.name := by
  simpa using find?_some (entryFor_spec db hq)

theorem entryFor_mem (db : Db) (hq : q ∈ v) : db.entryFor v q ∈ db.merged v :=
  mem_of_find?_eq_some (entryFor_spec db hq)

theorem set_of_slot (h : slot u.participants p.name = some (q, i)) :
    u.set topics p = { mark (1 + u.participants.length + i) q p with topics := topics p.name } := by
  unfold PolicyUpdate.set settled
  rw [h]

theorem set_of_none (h : slot u.participants p.name = none) : u.set topics p = p := by
  unfold PolicyUpdate.set settled
  rw [h]

theorem mem_of_slot_none (hp : p ∈ db.merged v)
    (h : slot v p.name = none) : p ∈ db.participants := by
  rcases mem_append.1 hp with hold | hnew
  · exact hold
  · obtain ⟨q, hq, _, rfl, _⟩ := mem_freshFor hnew
    exact absurd rfl (slot_none.1 h q hq)

theorem slot_entryFor (db : Db) (hi : u.participants[i]? = some q) :
    slot u.participants (db.entryFor u.participants q).name = some (q, i) :=
  (slot_eq_some_iff u.nodup).2 ⟨hi, (entryFor_name db (mem_of_getElem? hi)).symm⟩

theorem hides_iff {i : Nat} (hi : u.participants[i]? = some q) : u.hides db.stands q.name = true ↔
    ∃ a ∈ (db.merged u.participants).takeWhile (·.name != q.name),
      slot u.participants a.name = none ∧ a.inputNumber = 1 + u.participants.length + i := by
  have hslot : slot u.participants q.name = some (q, i) := (slot_eq_some_iff u.nodup).2 ⟨hi, rfl⟩
  have htake : ∀ a, slot u.participants a.name = none →
      (a ∈ (db.merged u.participants).takeWhile (·.name != q.name) ↔
        a ∈ db.participants.takeWhile (·.name != q.name)) := by
    intro a hs
    rw [takeWhile_append]
    split
    · rename_i hall
      have heq := ( takeWhile_prefix (fun p : Participant => p.name != q.name)).eq_of_length hall
      rw [heq, mem_append]
      refine ⟨fun h => h.resolve_right fun hnew => ?_, .inl⟩
      obtain ⟨q', hq', _, rfl, _⟩ := mem_freshFor (takeWhile_subset _ hnew)
      exact slot_none.1 hs q' hq' rfl
    · exact Iff.rfl
  unfold PolicyUpdate.hides Db.stands
  rw [hslot, Option.any_some, takeWhile_map, any_map, any_eq_true]
  constructor
  · rintro ⟨a, ha, h⟩
    simp only [Function.comp_apply, and_eq_true, Option.isNone_iff_eq_none, beq_iff_eq] at h
    exact ⟨a, (htake a h.1).2 ha, h⟩
  · rintro ⟨a, ha, h⟩
    refine ⟨a, (htake a h.1).1 ha, ?_⟩
    simpa using h

theorem find?_set (topics : Name → List Rule) (hfit : db.Fits u.participants) (hi : u.participants[i]? = some q) :
    ((db.merged u.participants).map (u.set topics)).find?
        (·.inputNumber == 1 + u.participants.length + i) = some (u.set topics (db.entryFor u.participants q)) ↔
      u.hides db.stands q.name = false := by
  have hq := mem_of_getElem? hi
  have hslot := slot_entryFor db hi
  obtain ⟨_, as, bs, hsplit, has⟩ := find?_eq_some_iff_append.1 (entryFor_spec db hq)
  have hname := entryFor_name db hq
  have hhandles := hfit.handles_withFresh u.nodup
  generalize db.entryFor u.participants q = p at *
  have htake : as = (db.merged u.participants).takeWhile (·.name != q.name) := by
    rw [hsplit, takeWhile_append_of_pos (by simpa using has), takeWhile_cons_of_neg (by simp [hname]), append_nil]
  have hmem : p ∈ db.merged u.participants := by
    rw [hsplit]
    exact mem_append_right _ mem_cons_self
  have hhides := @hides_iff db u q i hi
  rw [← htake] at hhides
  rw [hsplit, map_append, find?_append, ← not_eq_true, hhides]
  constructor
  · -- a stale one with the number is found before
    rintro hfind ⟨a, ha, hs, hnum⟩
    have hsome : ((as.map (u.set topics)).find? (·.inputNumber == 1 + u.participants.length + i)).isSome = true := by
      rw [find?_isSome]
      exact ⟨a, mem_map.2 ⟨a, ha, set_of_none hs⟩, by simpa using hnum⟩
    obtain ⟨b, hb⟩ := Option.isSome_iff_exists.1 hsome
    rw [hb] at hfind
    obtain ⟨p', hp', heq⟩ := mem_map.1 (mem_of_find?_eq_some hb)
    have hhandle : p'.handle = p.handle := by
      rw [← settled_handle _ u.participants topics p', ← settled_handle _ u.participants topics p]
      exact congrArg handle (heq.trans (Option.some.inj hfind))
    have hp'' : p' ∈ db.merged u.participants := by
      rw [hsplit]
      exact mem_append_left _ hp'
    obtain rfl := eq_of_handle hhandles hp'' hmem hhandle
    exact absurd hname (by simpa using has p' hp')
  intro hnone
  have has' : (as.map (u.set topics)).find? (·.inputNumber == 1 + u.participants.length + i) = none := by
    refine find?_eq_none.2 fun a' ha' hnum => ?_
    obtain ⟨a, ha, rfl⟩ := mem_map.1 ha'
    have hne : a.name ≠ q.name := by simpa using has a ha
    cases hs : slot u.participants a.name with
    | none =>
      rw [set_of_none hs] at hnum
      exact hnone ⟨a, ha, hs, by simpa using hnum⟩
    | some qj =>
      -- set as well, at another place
      obtain ⟨q', j⟩ := qj
      obtain ⟨hj, hname'⟩ := slot_some hs
      rw [set_of_slot hs] at hnum
      obtain rfl : j = i := by simpa [mark] using hnum
      rw [hi] at hj
      exact hne (by rw [← hname', Option.some.inj hj])
  rw [has', map_cons]
  rw [set_of_slot hslot]
  simp [mark]

theorem entryFor_of_slot (hfit : db.Fits u.participants)
    (hp : p ∈ db.merged u.participants) (h : slot u.participants p.name = some (q, i)) :
    db.entryFor u.participants q = p := by
  obtain ⟨hi, hname⟩ := slot_some h
  have hq := mem_of_getElem? hi
  exact (hfit.withFresh u.nodup).single q hq _ (entryFor_mem db hq) p hp (entryFor_name db hq) hname.symm

theorem eq_set_of_refreshed (topics : Name → List Rule) (hfit : db.Fits u.participants)
    (hstale : ∀ p ∈ db.participants, p.refreshed = false)
    (hp : p ∈ (db.merged u.participants).map (u.set topics)) (hr : p.refreshed = true) :
    ∃ q i, u.participants[i]? = some q ∧ p.inputNumber = 1 + u.participants.length + i ∧
      p = u.set topics (db.entryFor u.participants q) := by
  obtain ⟨p0, hp0, rfl⟩ := mem_map.1 hp
  cases hs : slot u.participants p0.name with
  | none =>
    rw [set_of_none hs, hstale p0 (mem_of_slot_none hp0 hs)] at hr
    cases hr
  | some qi =>
    obtain ⟨q, i⟩ := qi
    refine ⟨q, i, (slot_some hs).1, ?_, by rw [entryFor_of_slot hfit hp0 hs]⟩
    rw [set_of_slot hs]
    rfl

theorem set_handles (ps : List Participant) : (ps.map (u.set topics)).map handle = ps.map handle := by
  rw [map_map]
  exact map_congr_left fun p _ => settled_handle _ _ _ p

variable (topics : Name → List Rule)

section
variable (hfit : db.Fits u.participants)
include hfit

theorem set_nodup : ((db.merged u.participants).map (u.set topics)).Nodup := by
  apply List.Nodup.of_map handle
  rw [set_handles]
  exact hfit.handles_withFresh u.nodup

section
variable (hstale : ∀ p ∈ db.participants, p.refreshed = false)
include hstale

theorem moved_set_iff
    (hp : p ∈ db.merged u.participants) :
    ((u.set topics p).refreshed && !moved inputNumber
        (List.range' 1 (u.participants.length + u.participants.length))
        ((db.merged u.participants).map (u.set topics)) (u.set topics p)) =
      u.hides db.stands p.name := by
  cases hs : slot u.participants p.name with
  | none =>
    rw [set_of_none hs, hstale p (mem_of_slot_none hp hs), PolicyUpdate.hides, hs]
    rfl
  | some qi =>
    obtain ⟨q, i⟩ := qi
    obtain ⟨hi, hname⟩ := slot_some hs
    have hlt := (List.getElem?_eq_some_iff.1 hi).1
    have hnum : (u.set topics p).inputNumber = 1 + u.participants.length + i := by
      rw [set_of_slot hs]
      rfl
    have href : (u.set topics p).refreshed = true := by
      rw [set_of_slot hs]
      rfl
    have hin : (u.set topics p).inputNumber ∈ List.range' 1 (u.participants.length + u.participants.length) := by
      rw [mem_range'_1]
      omega
    have hfind := find?_set topics hfit hi
    rw [entryFor_of_slot hfit hp hs, ← hnum, hname] at hfind
    unfold moved
    rw [href, decide_eq_true hin, Bool.true_and, Bool.true_and, Bool.eq_iff_iff, Bool.not_eq_true',
      ← not_eq_false (u.hides _ _), ← hfind, beq_eq_false_iff_ne]

theorem find?_set_filter
    (hi : u.participants[i]? = some q) :
    (((db.merged u.participants).map (u.set topics)).find?
        (·.inputNumber == 1 + u.participants.length + i)).filter refreshed =
      if u.hides db.stands q.name then none else some (u.set topics (db.entryFor u.participants q)) := by
  have hiff := find?_set topics hfit hi
  by_cases hh : u.hides db.stands q.name = true
  · rw [if_pos hh, Option.filter_eq_none_iff]
    intro p hp hr
    obtain ⟨q', j, hj, hnum, rfl⟩ := eq_set_of_refreshed topics hfit hstale (mem_of_find?_eq_some hp) hr
    have hnum' : (u.set topics (db.entryFor u.participants q')).inputNumber = 1 + u.participants.length + i := by
      simpa using find?_some hp
    obtain rfl : j = i := by omega
    rw [hi] at hj
    cases hj
    rw [hiff.1 hp] at hh
    cases hh
  · rw [if_neg hh, hiff.2 (by simpa using hh), set_of_slot (slot_entryFor db hi)]
    rfl

theorem filterMap_find?_set :
    (List.range' 1 (u.participants.length + u.participants.length)).filterMap (fun k =>
        (((db.merged u.participants).map (u.set topics)).find? (·.inputNumber == k)).filter
          refreshed) =
      (u.participants.filter fun q => !u.hides db.stands q.name).map fun q =>
        u.set topics (db.entryFor u.participants q) := by
  have hhigh := fun {q i} hi => find?_set_filter topics hfit hstale (q := q) (i := i) hi
  have hfirst := fun {p} hp hr => eq_set_of_refreshed topics (p := p) hfit hstale hp hr
  generalize (db.merged u.participants).map (u.set topics) = ps at *
  -- nothing has a number of the first pass
  have hlow : (List.range' 1 u.participants.length).filterMap (fun k =>
      (ps.find? (·.inputNumber == k)).filter refreshed) = [] := by
    refine filterMap_eq_nil_iff.2 fun k hk => ?_
    rw [Option.filter_eq_none_iff]
    intro p hp hr
    obtain ⟨q, i, -, hnum, -⟩ := hfirst (mem_of_find?_eq_some hp) hr
    have hpk : p.inputNumber = k := by simpa using find?_some hp
    rw [mem_range'_1] at hk
    omega
  have hzip : ∀ qk ∈ u.participants.zipIdx (1 + u.participants.length),
      (ps.find? (·.inputNumber == qk.2)).filter refreshed =
        if u.hides db.stands qk.1.name then none else some (u.set topics (db.entryFor u.participants qk.1)) := by
    rintro ⟨q, k⟩ hqk
    rw [mem_zipIdx_iff_le_and_getElem?_sub] at hqk
    obtain ⟨i, rfl⟩ := Nat.exists_eq_add_of_le hqk.1
    exact hhigh (by simpa using hqk.2)
  rw [← range'_append_1, filterMap_append, hlow, ← zipIdx_map_snd (1 + u.participants.length) u.participants,
    filterMap_map]
  calc (u.participants.zipIdx (1 + u.participants.length)).filterMap _
      = ((u.participants.zipIdx (1 + u.participants.length)).map Prod.fst).filterMap fun q =>
          if u.hides db.stands q.name then none else some (u.set topics (db.entryFor u.participants q)) := by
        rw [filterMap_map]
        exact filterMap_congr hzip
    _ = _ := by
        rw [zipIdx_map_fst]
        rw [← filterMap_eq_map, filterMap_filter]
        refine filterMap_congr fun q _ => ?_
        by_cases hh : u.hides db.stands q.name = true <;> simp [hh]

end

end

theorem reorderParticipants_eq (n : Nat) (ps : List Participant) :
    reorderParticipants n ps = sortTo inputNumber (List.range' 1 (n - 1)) ps := rfl

/-- **The order in which an update leaves the participants of its policy.** -/
theorem reorderParticipants_names (hfit : db.Fits u.participants)
    (hstale : ∀ p ∈ db.participants, p.refreshed = false) :
    ((reorderParticipants (1 + u.participants.length + u.participants.length)
        ((db.merged u.participants).map (u.set topics))).filter (·.refreshed)).map
        name = u.orderAfter db.stands := by
  have hrange : 1 + u.participants.length + u.participants.length - 1 =
      u.participants.length + u.participants.length := by
    omega
  have hsort := filter_sortTo inputNumber refreshed (set_nodup topics hfit)
    (nodup_range' (s := 1) (n := u.participants.length + u.participants.length))
  rw [reorderParticipants_eq, hrange, hsort, filterMap_find?_set topics hfit hstale, map_append, filter_map,
    map_map, map_map]
  congr 1
  · have hnames : name ∘ u.set topics = name := funext fun p => settled_name _ _ _ p
    have hstands : db.stands.map Prod.fst = db.participants.map name := by
      unfold Db.stands
      rw [map_map]
      rfl
    have hmissing : (u.participants.map PolicyParticipant.name).filter (fun name => !db.stands.any (·.1 == name)) =
        (db.freshFor u.participants).map name := by
      rw [freshFor_names, filter_map]
      refine congrArg _ (filter_congr fun q _ => ?_)
      rw [Function.comp_apply, Db.stands, any_map]
      rfl
    rw [hnames, hstands, hmissing, ← map_append, filter_map]
    exact congrArg _ (filter_congr fun p hp => moved_set_iff topics hfit hstale hp)
  · rw [filter_map]
    refine map_congr_left fun q hq => ?_
    exact (settled_name _ _ _ _).trans (entryFor_name db (mem_filter.1 hq).1)

theorem filter_reorderParticipants (hfit : db.Fits u.participants)
    (hstale : ∀ p ∈ db.participants, p.refreshed = false)
    (horder : u.orderAfter db.stands = u.participants.map PolicyParticipant.name) :
    (reorderParticipants (1 + u.participants.length + u.participants.length)
        ((db.merged u.participants).map (u.set topics))).filter (·.refreshed) =
      u.participants.map fun q => u.set topics (db.entryFor u.participants q) := by
  have hnames := reorderParticipants_names topics hfit hstale
  rw [horder] at hnames
  have hentry : ∀ p ∈ (reorderParticipants (1 + u.participants.length + u.participants.length)
      ((db.merged u.participants).map (u.set topics))).filter (·.refreshed),
      ∃ q ∈ u.participants, p.name = q.name ∧ p = u.set topics (db.entryFor u.participants q) := by
    intro p hp
    obtain ⟨hp, hr⟩ := mem_filter.1 hp
    rw [mem_reorderParticipants] at hp
    obtain ⟨q, i, hi, -, rfl⟩ := eq_set_of_refreshed topics hfit hstale hp hr
    have hq := mem_of_getElem? hi
    exact ⟨q, hq, (settled_name _ _ _ _).trans (entryFor_name db hq), rfl⟩
  generalize (reorderParticipants _ _).filter _ = ps at *
  -- the name tells which one it is
  have hback : ps = (ps.map name).map fun name => u.set topics
      (((db.merged u.participants).find? (·.name == name)).getD (blank 0 name)) := by
    rw [map_map]
    conv_lhs => rw [← map_id ps]
    refine map_congr_left fun p hp => ?_
    obtain ⟨q, -, hname, heq⟩ := hentry p hp
    rw [Function.comp_apply, hname, heq]
    rfl
  rw [hback, hnames, map_map]
  rfl

end

end Qeo.Access
