import Mathlib.Data.List.Find
import QeoCore.AccessOrder
/-!
# AccessTopics — topic rules that an update reuses

A topic rule of the policy before is reused if name and mode are the same.  At the end the rules without wildcards are
moved to the head, so that only the order of the patterns can depend on what was there.
-/
namespace Qeo.Access

open List Option Prod

/-! ## Topic rules that are reused -/

def PolicyTopic.same (s t : PolicyTopic) : Bool := s.name == t.name && s.mode == t.mode

open PolicyTopic

def PolicyTopic.wild (t : PolicyTopic) : Bool := hasWildcards (some t.name)

def carriedOver (old new : List PolicyTopic) : List PolicyTopic :=
  old.filterMap (fun s => new.find? (·.same s)) ++ new.filter fun t => !old.any t.same

def ruleOf (domainId : Nat) (refreshed : Bool) (it : Nat × PolicyTopic) : Rule :=
  ⟨it.1, domainId, some it.2.name, it.2.mode, it.2.blacklist, refreshed⟩

def orEverything (rules : List Rule) : List Rule := if rules = [] then [.empty] else rules

section

variable {domainId oldId m n : Nat} {rules : List Rule} {ts done old new : List PolicyTopic} {t s : PolicyTopic}
  {its : List (Nat × PolicyTopic)}

theorem same_iff : s.same t = true ↔ s.name = t.name ∧ s.mode = t.mode := by
  unfold same
  simp

theorem ruleHandle_orEverything (name : Option Name) (mode : Mode) :
    ruleHandle (orEverything rules) name mode = ruleHandle rules name mode := by
  unfold orEverything
  split
  · rename_i h
    subst h
    simp [ruleHandle, Rule.empty]
  · rfl

theorem addRule_orEverything (h : ∀ r ∈ rules, r.index ≠ 0) (index : Nat) :
    addRule (orEverything rules) index = rules ++ [{ Rule.empty with index := index }] := by
  unfold addRule orEverything
  cases rules with
  | nil => simp [Rule.empty]
  | cons r rest =>
    have hr : r.index ≠ 0 := h r mem_cons_self
    simp [hr]

theorem applyTopic_of_some (hrules : rules ≠ []) (h : ruleHandle rules (some t.name) t.mode = some index) :
    applyTopic domainId (orEverything rules, n) t =
      (setRule rules index (some t.name) t.mode domainId t.blacklist, n) := by
  unfold applyTopic
  rw [ruleHandle_orEverything, h]
  unfold orEverything
  rw [if_neg hrules]

theorem applyTopic_of_none (hzero : ∀ r ∈ rules, r.index ≠ 0) (hle : ∀ r ∈ rules, r.index ≤ n)
    (h : ruleHandle rules (some t.name) t.mode = none) :
    applyTopic domainId (orEverything rules, n) t = (rules ++ [ruleOf domainId true (n + 1, t)], n + 1) := by
  unfold applyTopic
  rw [ruleHandle_orEverything, h]
  dsimp only
  rw [addRule_orEverything hzero]
  unfold setRule
  rw [map_append, map_singleton]
  congr 2
  · conv_rhs => rw [← map_id rules]
    refine map_congr_left fun r hr => ?_
    have hne : r.index ≠ n + 1 := by
      have := hle r hr
      omega
    rw [if_neg hne, id]
  · rw [if_pos rfl]
    rfl

def newTopics (its : List (Nat × PolicyTopic)) (ts : List PolicyTopic) : List PolicyTopic :=
  ts.filter fun t => !(its.map snd).any t.same

def updated (domainId oldId : Nat) (ts : List PolicyTopic) (it : Nat × PolicyTopic) : Rule :=
  match ts.find? (·.same it.2) with
  | some t => ruleOf domainId true (it.1, t)
  | none => ruleOf oldId false it

def afterTopics (domainId oldId m : Nat) (its : List (Nat × PolicyTopic)) (ts : List PolicyTopic) : List Rule :=
  its.map (updated domainId oldId ts) ++ ((newTopics its ts).zipIdx (m + 1)).map fun ti =>
    ruleOf domainId true (ti.2, ti.1)

structure Listed (m : Nat) (its : List (Nat × PolicyTopic)) : Prop where
  indices : (its.map fst).Nodup
  bounded : ∀ it ∈ its, it.1 ≠ 0 ∧ it.1 ≤ m
  names : ((its.map snd).map name).Nodup

theorem updated_index (it : Nat × PolicyTopic) : (updated domainId oldId ts it).index = it.1 := by
  unfold updated
  split <;> rfl

theorem updated_key (it : Nat × PolicyTopic) :
    (updated domainId oldId ts it).name = some it.2.name ∧ (updated domainId oldId ts it).mode = it.2.mode := by
  unfold updated
  cases h : ts.find? (·.same it.2) with
  | none => exact ⟨rfl, rfl⟩
  | some t =>
    have hsame : t.same it.2 = true := by simpa using find?_some h
    obtain ⟨hname, hmode⟩ := same_iff.1 hsame
    exact ⟨congrArg some hname, hmode⟩

theorem afterTopics_index (hl : Listed m its) (hr : r ∈ afterTopics domainId oldId m its ts) :
    r.index ≠ 0 ∧ r.index ≤ m + (newTopics its ts).length := by
  rcases mem_append.1 hr with hr | hr
  · obtain ⟨it, hit, rfl⟩ := mem_map.1 hr
    rw [updated_index]
    have := hl.bounded it hit
    omega
  · obtain ⟨⟨t, i⟩, hti, rfl⟩ := mem_map.1 hr
    have hrange := mem_map_of_mem (f := snd) hti
    rw [zipIdx_map_snd, mem_range'_1] at hrange
    change i ≠ 0 ∧ i ≤ m + _
    omega

theorem newTopics_append : newTopics its (done ++ [t]) =
    newTopics its done ++ if (its.map snd).any t.same then [] else [t] := by
  unfold newTopics
  rw [filter_append]
  by_cases h : (its.map snd).any t.same = true
  · rw [if_pos h, filter_cons_of_neg (by simp [h]), filter_nil]
  · rw [if_neg h, filter_cons_of_pos (by simp [h]), filter_nil]

theorem updated_append (h : ∀ s ∈ done, s.name ≠ t.name) (it : Nat × PolicyTopic) :
    updated domainId oldId (done ++ [t]) it =
      if t.same it.2 then ruleOf domainId true (it.1, t) else updated domainId oldId done it := by
  unfold updated
  rw [find?_append]
  by_cases hs : t.same it.2 = true
  · have hnone : done.find? (·.same it.2) = none := by
      refine find?_eq_none.2 fun s hsd hsame => h s hsd ?_
      rw [(same_iff.1 hsame).1, (same_iff.1 hs).1]
    have hlast : [t].find? (·.same it.2) = some t := find?_cons_of_pos hs
    rw [hnone, none_or, hlast, if_pos hs]
  · have hlast : [t].find? (·.same it.2) = none := find?_cons_of_neg hs
    rw [hlast, or_none, if_neg hs]

theorem ruleHandle_afterTopics (hl : Listed m its) (h : ∀ s ∈ done, s.name ≠ t.name) :
    ruleHandle (afterTopics domainId oldId m its done) (some t.name) t.mode =
      (its.find? fun it => t.same it.2).map fst := by
  unfold ruleHandle afterTopics
  have hnew : (((newTopics its done).zipIdx (m + 1)).map fun ti => ruleOf domainId true (ti.2, ti.1)).find?
      (fun r => r.name == some t.name && r.mode == t.mode && r.index != 0) = none := by
    refine find?_eq_none.2 fun r hr hfound => ?_
    obtain ⟨⟨s, i⟩, hsi, rfl⟩ := mem_map.1 hr
    have hs : s ∈ newTopics its done := by
      have := mem_map_of_mem (f := fst) hsi
      rwa [zipIdx_map_fst] at this
    have hname : s.name = t.name := by
      simp only [Bool.and_eq_true] at hfound
      simpa [ruleOf] using hfound.1.1
    exact h s (mem_filter.1 hs).1 hname
  rw [find?_append, hnew, Option.or_none, find?_map, Option.map_map]
  have hpred : ∀ it ∈ its, ((fun r : Rule => r.name == some t.name && r.mode == t.mode && r.index != 0) ∘
      updated domainId oldId done) it = t.same it.2 := by
    intro it hit
    have hzero := (hl.bounded it hit).1
    obtain ⟨hname, hmode⟩ := @updated_key domainId oldId done it
    rw [Function.comp_apply, hname, hmode, updated_index, Bool.eq_iff_iff, same_iff]
    simp only [Bool.and_eq_true, beq_iff_eq, Option.some.injEq, bne_iff_ne, ne_eq, hzero, not_false_eq_true, and_true]
    rw [eq_comm, @eq_comm _ it.2.mode]
  rw [find?_congr hpred]
  exact map_congr fun it _ => updated_index it

theorem setRule_afterTopics (hl : Listed m its) (h : ∀ s ∈ done, s.name ≠ t.name)
    (hit : its.find? (fun it => t.same it.2) = some it) :
    setRule (afterTopics domainId oldId m its done) it.1 (some t.name) t.mode domainId t.blacklist =
      afterTopics domainId oldId m its (done ++ [t]) := by
  have hmem := mem_of_find?_eq_some hit
  have hsame : t.same it.2 = true := by simpa using find?_some hit
  have hany : (its.map snd).any t.same = true := any_eq_true.2 ⟨it.2, mem_map_of_mem hmem, hsame⟩
  unfold setRule afterTopics
  rw [newTopics_append, if_pos hany, append_nil, map_append, List.map_map]
  congr 1
  · refine map_congr_left fun it' hit' => ?_
    rw [Function.comp_apply, updated_index, updated_append h]
    -- the number and the topic pick out the same rule
    by_cases hi : it'.1 = it.1
    · obtain rfl := inj_on_of_nodup_map hl.indices hit' hmem hi
      rw [if_pos rfl, if_pos hsame]
      rfl
    have hne : ¬ t.same it'.2 = true := by
      intro hs
      have hname : it'.2.name = it.2.name := by rw [← (same_iff.1 hs).1, ← (same_iff.1 hsame).1]
      have hnames := hl.names
      rw [List.map_map] at hnames
      exact hi (congrArg fst (inj_on_of_nodup_map hnames hit' hmem hname))
    rw [if_neg hi, if_neg hne]
  conv_rhs => rw [← map_id (List.map _ _)]
  refine map_congr_left fun r hr => ?_
  obtain ⟨⟨s, i⟩, hsi, rfl⟩ := mem_map.1 hr
  have hrange := mem_map_of_mem (f := snd) hsi
  rw [zipIdx_map_snd, mem_range'_1] at hrange
  have hle := (hl.bounded it hmem).2
  have hne : (ruleOf domainId true (i, s)).index ≠ it.1 := by
    change i ≠ it.1
    omega
  rw [if_neg hne, id]

theorem applyTopics_eq (hl : Listed m its) (hts : (ts.map name).Nodup) :
    applyTopics domainId (orEverything (its.map (ruleOf oldId false)), m) ts =
      (orEverything (afterTopics domainId oldId m its ts), m + (newTopics its ts).length) := by
  induction ts using reverseRecOn with
  | nil =>
    have hupd : updated domainId oldId [] = ruleOf oldId false := rfl
    simp [applyTopics, afterTopics, newTopics, hupd]
  | append_singleton done t ih =>
    rw [map_append, nodup_append] at hts
    obtain ⟨hdone, -, hdisj⟩ := hts
    have ht : ∀ s ∈ done, s.name ≠ t.name := fun s hs => hdisj s.name (mem_map_of_mem hs) t.name (by simp)
    have hstep : applyTopics domainId (orEverything (its.map (ruleOf oldId false)), m) (done ++ [t]) =
        applyTopic domainId
          (orEverything (afterTopics domainId oldId m its done), m + (newTopics its done).length) t := by
      rw [← ih hdone]
      unfold applyTopics
      rw [foldl_append, foldl_cons, foldl_nil]
    have hhandle := @ruleHandle_afterTopics domainId oldId m done t its hl ht
    rw [hstep]
    cases hf : its.find? (fun it => t.same it.2) with
    | some it =>
      rw [hf] at hhandle
      have hmem := mem_of_find?_eq_some hf
      have hne : ∀ ts, afterTopics domainId oldId m its ts ≠ [] := by
        intro ts hnil
        unfold afterTopics at hnil
        rw [append_eq_nil_iff, map_eq_nil_iff] at hnil
        rw [hnil.1] at hmem
        cases hmem
      have hany : (its.map snd).any t.same = true :=
        any_eq_true.2 ⟨it.2, mem_map_of_mem hmem, by simpa using find?_some hf⟩
      rw [applyTopic_of_some (hne done) hhandle, setRule_afterTopics hl ht hf, newTopics_append, if_pos hany,
        append_nil]
      unfold orEverything
      rw [if_neg (hne _)]
    | none =>
      rw [hf] at hhandle
      have hnone : ∀ it ∈ its, ¬ t.same it.2 = true := by simpa using find?_eq_none.1 hf
      have hany : ¬ (its.map snd).any t.same = true := by simpa using hnone
      have hupd : its.map (updated domainId oldId (done ++ [t])) = its.map (updated domainId oldId done) := by
        refine map_congr_left fun it hit => ?_
        rw [updated_append ht, if_neg (hnone it hit)]
      have hafter : afterTopics domainId oldId m its (done ++ [t]) = afterTopics domainId oldId m its done ++
          [ruleOf domainId true (m + (newTopics its done).length + 1, t)] := by
        unfold afterTopics
        rw [hupd, newTopics_append, if_neg hany, zipIdx_append]
        simp [Nat.add_right_comm]
      rw [applyTopic_of_none (fun r hr => (afterTopics_index hl hr).1)
        (fun r hr => (afterTopics_index hl hr).2) hhandle, newTopics_append, if_neg hany, length_append, hafter]
      unfold orEverything
      rw [if_neg (by simp)]
      rfl

def keptTopics (m : Nat) (its : List (Nat × PolicyTopic)) (ts : List PolicyTopic) : List (Nat × PolicyTopic) :=
  its.filterMap (fun it => (ts.find? (·.same it.2)).map fun t => (it.1, t)) ++
    ((newTopics its ts).zipIdx (m + 1)).map Prod.swap

def exactFirst (its : List (Nat × PolicyTopic)) : List (Nat × PolicyTopic) :=
  (its.filter fun it => !it.2.wild).reverse ++ its.filter fun it => it.2.wild

theorem cleanupRules_afterTopics (hl : Listed m its) :
    cleanupRules (afterTopics domainId oldId m its ts) = (keptTopics m its ts).map (ruleOf domainId false) := by
  unfold cleanupRules afterTopics keptTopics
  rw [filterMap_append, map_append, filterMap_map, map_filterMap, filterMap_map, List.map_map]
  congr 1
  · refine filterMap_congr fun it hit => ?_
    have hzero := (hl.bounded it hit).1
    unfold updated
    dsimp only [Function.comp_apply]
    cases ts.find? (·.same it.2) with
    | some t => simp [ruleOf]
    | none => simp [ruleOf, hzero]
  · rw [← filterMap_eq_map]
    rfl

theorem optimizeRules_afterTopics (hl : Listed m its) :
    optimizeRules [.empty] (cleanupRules (orEverything (afterTopics domainId oldId m its ts))) =
      orEverything ((exactFirst (keptTopics m its ts)).map (ruleOf domainId false)) := by
  have hclean := @cleanupRules_afterTopics domainId oldId m ts its hl
  by_cases hnil : afterTopics domainId oldId m its ts = []
  · -- only the rule for everything is left
    have hkept : keptTopics m its ts = [] := by
      rw [hnil] at hclean
      exact map_eq_nil_iff.1 hclean.symm
    rw [hnil, hkept]
    rfl
  unfold orEverything optimizeRules
  rw [if_neg hnil, hclean]
  by_cases hkept : keptTopics m its ts = []
  · rw [hkept]
    rfl
  have hne : (keptTopics m its ts).map (ruleOf domainId false) ≠ [] := by simpa using hkept
  have hmoved : moveExact [] [] ((keptTopics m its ts).map (ruleOf domainId false)) =
      (exactFirst (keptTopics m its ts)).map (ruleOf domainId false) := by
    rw [moveExact_eq, append_nil, exactFirst, map_append, map_reverse, List.filter_map, List.filter_map]
    rfl
  have hne' : (exactFirst (keptTopics m its ts)).map (ruleOf domainId false) ≠ [] := by
    rw [← hmoved]
    intro h
    exact hne (perm_nil.1 (h ▸ moveExact_perm _).symm)
  rw [if_neg hne, if_neg hne', hmoved]

theorem keptTopics_topics (m : Nat) (its : List (Nat × PolicyTopic)) (ts : List PolicyTopic) :
    (keptTopics m its ts).map snd = carriedOver (its.map snd) ts := by
  unfold keptTopics carriedOver newTopics
  rw [map_append, map_filterMap, List.map_map, filterMap_map]
  congr 1
  · refine filterMap_congr fun it _ => ?_
    rw [Option.map_map]
    exact map_id'
  · exact zipIdx_map_fst _ _

/-! ## The order of the topics -/

section

variable (hold : (old.map name).Nodup) (hnew : (new.map name).Nodup)

include hnew in
theorem find?_same (ht : t ∈ new) (hs : t.same s = true) : new.find? (·.same s) = some t := by
  refine FirstMatch.find?_of_unique ht hs fun t' ht' hs' => inj_on_of_nodup_map hnew ht' ht ?_
  rw [(same_iff.1 hs').1, (same_iff.1 hs).1]

include hnew in
theorem mem_carriedOver : t ∈ carriedOver old new ↔ t ∈ new := by
  unfold carriedOver
  rw [mem_append, mem_filterMap, mem_filter]
  constructor
  · rintro (⟨s, -, hf⟩ | ⟨ht, -⟩)
    · exact mem_of_find?_eq_some hf
    · exact ht
  intro ht
  by_cases h : old.any t.same = true
  · obtain ⟨s, hs, hsame⟩ := any_eq_true.1 h
    exact .inl ⟨s, hs, find?_same hnew ht hsame⟩
  · exact .inr ⟨ht, by simpa using h⟩

theorem shared_sublist : ∀ old : List PolicyTopic,
    ((old.filterMap fun s => new.find? (·.same s)).map name).Sublist (old.map name)
  | [] => List.Sublist.refl _
  | s :: old => by
    rw [filterMap_cons]
    cases hf : new.find? (·.same s) with
    | none => exact (shared_sublist old).cons _
    | some t =>
      have hsame : t.same s = true := by simpa using find?_some hf
      rw [map_cons, (same_iff.1 hsame).1]
      exact (shared_sublist old).cons_cons _

include hold hnew in
theorem carriedOver_names : ((carriedOver old new).map name).Nodup := by
  unfold carriedOver
  rw [map_append, nodup_append]
  refine ⟨?_, hnew.sublist (filter_sublist.map _), ?_⟩
  · exact hold.sublist (shared_sublist old)
  intro a ha b hb hab
  obtain ⟨t, ht, rfl⟩ := mem_map.1 ha
  obtain ⟨t', ht', rfl⟩ := mem_map.1 hb
  obtain ⟨s, hs, hf⟩ := mem_filterMap.1 ht
  obtain ⟨htn', hany⟩ := mem_filter.1 ht'
  obtain rfl := inj_on_of_nodup_map hnew (mem_of_find?_eq_some hf) htn' hab
  have hsame : t.same s = true := by simpa using find?_some hf
  have hnot : ∀ s ∈ old, ¬ t.same s = true := by simpa using hany
  exact hnot s hs hsame

include hold hnew in
theorem carriedOver_perm : (carriedOver old new).Perm new :=
  (perm_ext_iff_of_nodup (carriedOver_names hold hnew).of_map hnew.of_map).2 fun _ => mem_carriedOver hnew

theorem carriedOver_wild (old new : List PolicyTopic) : (carriedOver old new).filter PolicyTopic.wild =
    (old.filter PolicyTopic.wild).filterMap (fun s => new.find? (·.same s)) ++
      (new.filter fun t => !old.any t.same).filter PolicyTopic.wild := by
  unfold carriedOver
  rw [filter_append]
  congr 1
  induction old with
  | nil => rfl
  | cons s old ih =>
    rw [filterMap_cons]
    cases hf : new.find? (·.same s) with
    | none =>
      by_cases hs : s.wild = true
      · rw [filter_cons_of_pos hs, filterMap_cons, hf, ih]
      · rw [filter_cons_of_neg hs, ih]
    | some t =>
      have hsame : t.same s = true := by simpa using find?_some hf
      have hwild : t.wild = s.wild := by
        unfold PolicyTopic.wild
        rw [(same_iff.1 hsame).1]
      by_cases hs : s.wild = true
      · rw [filter_cons_of_pos hs, filter_cons_of_pos (hwild.trans hs), filterMap_cons, hf, ih]
      · rw [filter_cons_of_neg hs, filter_cons_of_neg (by rw [hwild]; exact hs), ih]

theorem carriedOver_wild_congr (hperm : old'.Perm old)
    (hwild : old'.filter PolicyTopic.wild = old.filter PolicyTopic.wild) :
    (carriedOver old' new).filter PolicyTopic.wild = (carriedOver old new).filter PolicyTopic.wild := by
  have hany : ∀ t : PolicyTopic, old'.any t.same = old.any t.same := fun t => hperm.any_eq
  rw [carriedOver_wild, carriedOver_wild, hwild]
  simp only [hany]

end

/-- The rules of a participant that has these topics: those without wildcards in some order, then the patterns in the
order of the policy. -/
def Holds (m domainId : Nat) (ts : List PolicyTopic) (rules : List Rule) : Prop :=
  ∃ its exact, Listed m its ∧ rules = orEverything (its.map (ruleOf domainId false)) ∧
    exact.Perm (ts.filter fun t => !t.wild) ∧ its.map snd = exact ++ ts.filter PolicyTopic.wild

theorem Holds.nil (m domainId : Nat) : Holds m domainId [] [.empty] :=
  ⟨[], [], ⟨nodup_nil, by simp, nodup_nil⟩, rfl, List.Perm.refl _, rfl⟩

theorem Holds.perm (hexact : exact.Perm (ts.filter fun t => !t.wild)) :
    (exact ++ ts.filter PolicyTopic.wild).Perm ts := by
  have hall := filter_append_perm (fun t : PolicyTopic => !t.wild) ts
  simp only [Bool.not_not] at hall
  exact (hexact.append_right _).trans hall

theorem Holds.wild (hexact : exact.Perm (ts.filter fun t => !t.wild)) :
    (exact ++ ts.filter PolicyTopic.wild).filter PolicyTopic.wild = ts.filter PolicyTopic.wild := by
  have hnil : exact.filter PolicyTopic.wild = [] := by
    refine filter_eq_nil_iff.2 fun t ht hw => ?_
    have := (mem_filter.1 (hexact.subset ht)).2
    simp [hw] at this
  rw [filter_append, hnil, nil_append, List.filter_filter]
  simp

theorem exactFirst_perm (its : List (Nat × PolicyTopic)) : (exactFirst its).Perm its := by
  have hall := filter_append_perm (fun it : Nat × PolicyTopic => !it.2.wild) its
  simp only [Bool.not_not] at hall
  exact ((reverse_perm _).append_right _).trans hall

theorem exactFirst_topics (its : List (Nat × PolicyTopic)) : (exactFirst its).map snd =
    ((its.map snd).filter fun t => !t.wild).reverse ++ (its.map snd).filter PolicyTopic.wild := by
  unfold exactFirst
  rw [map_append, map_reverse, List.filter_map, List.filter_map]
  rfl

theorem Listed.mono (hl : Listed m its) (h : m ≤ n) : Listed n its :=
  ⟨hl.indices, fun it hit => ⟨(hl.bounded it hit).1, Nat.le_trans (hl.bounded it hit).2 h⟩, hl.names⟩

theorem Holds.mono (h : Holds m domainId ts rules) (hle : m ≤ n) : Holds n domainId ts rules := by
  obtain ⟨its, exact, hl, hrules, hexact, horder⟩ := h
  exact ⟨its, exact, hl.mono hle, hrules, hexact, horder⟩

theorem Listed.kept (hl : Listed m its) (hts : (ts.map name).Nodup) :
    Listed (m + (newTopics its ts).length) (exactFirst (keptTopics m its ts)) := by
  have hperm := exactFirst_perm (keptTopics m its ts)
  have hshared : ((its.filterMap fun it => (ts.find? (·.same it.2)).map fun t => (it.1, t)).map fst).Sublist
      (its.map fst) := by
    clear hl hperm
    induction its with
    | nil => exact List.Sublist.refl _
    | cons it its ih =>
      rw [filterMap_cons]
      cases ts.find? (·.same it.2) with
      | none => exact ih.cons _
      | some t => exact ih.cons_cons _
  have hadded : (((newTopics its ts).zipIdx (m + 1)).map Prod.swap).map fst =
      range' (m + 1) (newTopics its ts).length := by
    rw [List.map_map]
    exact zipIdx_map_snd _ _
  have hfst : (keptTopics m its ts).map fst =
      (its.filterMap fun it => (ts.find? (·.same it.2)).map fun t => (it.1, t)).map fst ++
        range' (m + 1) (newTopics its ts).length := by
    rw [keptTopics, map_append, hadded]
  have hbound : ∀ i ∈ (its.filterMap fun it => (ts.find? (·.same it.2)).map fun t => (it.1, t)).map fst,
      i ≠ 0 ∧ i ≤ m := by
    intro i hi
    obtain ⟨it, hit, rfl⟩ := mem_map.1 (hshared.subset hi)
    exact hl.bounded it hit
  refine ⟨?_, fun it hit => ?_, ?_⟩
  · rw [(hperm.map _).nodup_iff, hfst, nodup_append]
    refine ⟨hl.indices.sublist hshared, nodup_range', fun i hi j hj hij => ?_⟩
    have := hbound i hi
    rw [mem_range'_1] at hj
    omega
  · have hi : it.1 ∈ (keptTopics m its ts).map fst := mem_map_of_mem (hperm.subset hit)
    rw [hfst] at hi
    rcases mem_append.1 hi with hi | hi
    · have := hbound _ hi
      omega
    · rw [mem_range'_1] at hi
      omega
  · have htopics := (hperm.map snd).map name
    rw [htopics.nodup_iff, keptTopics_topics]
    exact carriedOver_names hl.names hts

/-- **An update leaves the rules of a participant in the order of its policy**, if that keeps the order of the patterns
that are reused. -/
theorem Holds.update (h : Holds m oldId old rules) (hm : m ≤ n) (hts : (ts.map name).Nodup)
    (hfollows : (carriedOver old ts).filter PolicyTopic.wild = ts.filter PolicyTopic.wild) :
    Holds (applyTopics domainId (rules, n) ts).2 domainId ts
      (optimizeRules [.empty] (cleanupRules (applyTopics domainId (rules, n) ts).1)) := by
  obtain ⟨its, exact, hl, rfl, hexact, horder⟩ := h
  have hl := hl.mono hm
  rw [applyTopics_eq hl hts]
  refine ⟨exactFirst (keptTopics n its ts), ((carriedOver (its.map snd) ts).filter fun t => !t.wild).reverse,
    hl.kept hts, optimizeRules_afterTopics hl, ?_, ?_⟩
  · exact (reverse_perm _).trans ((carriedOver_perm hl.names hts).filter _)
  have hperm : (its.map snd).Perm old := by
    rw [horder]
    exact Holds.perm hexact
  have hwild : (its.map snd).filter PolicyTopic.wild = old.filter PolicyTopic.wild := by
    rw [horder]
    exact Holds.wild hexact
  rw [exactFirst_topics, keptTopics_topics, carriedOver_wild_congr hperm hwild, hfollows]

end

end Qeo.Access
