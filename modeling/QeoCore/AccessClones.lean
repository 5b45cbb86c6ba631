import QeoCore.AccessValidate
import QeoCore.AccessHistory
/-!
# AccessClones — connected participants after an update

An update keeps a clone if the participant it points to is in the new policy, and ties it to the first rule that admits
its name.  A clone is not looked at again, neither for another rule nor when its rule is blacklisted.
-/
namespace Qeo.Access

open List Option Nat FirstMatch

/-! ## The law -/

def PolicyParticipant.admits (nmatch : Name → Name → Bool) (q : PolicyParticipant) (name : Name) : Bool :=
  q.name == [] || ('*' ∈ q.name && nmatch q.name name) || q.name == name

def PolicyUpdate.ruleFor (u : PolicyUpdate) (nmatch : Name → Name → Bool) (name : Name) : Option PolicyParticipant :=
  u.participants.find? (·.admits nmatch name)

def Participant.IsAdmitted (p : Participant) : Prop := ∃ handle, p.cloned = some handle ∧ handle ≠ p.handle

/-- Connected participants follow the policy; `held` are the handles of participants with the permissions that each has
been given in a secure domain. -/
structure FollowsPolicy (nmatch : Name → Name → Bool) (held : List (Nat × Nat)) (db : Db) (u : PolicyUpdate)
    (db' : Db) : Prop where
  tied : ∀ p ∈ db.participants, p.IsAdmitted → ∀ q, u.ruleFor nmatch p.name = some q →
    ∃ p' ∈ db'.participants, p'.handle = p.handle ∧
      ∃ r ∈ db'.participants, r.name = q.name ∧ r.cloned = none ∧ p'.cloned = some r.handle
  denied : ∀ p ∈ db.participants, p.IsAdmitted → (∀ q, u.ruleFor nmatch p.name = some q → q.blacklist = true) →
    ∀ perm, (p.handle, perm) ∈ held → db'.PassesNone nmatch perm
  pointers : ∀ p ∈ db'.participants, ∀ handle, p.cloned = some handle → ∃ r ∈ db'.participants, r.handle = handle

/-- What a policy has to give for that: it names only rules and leaves its participants in order; a clone points to a
rule exactly if one admits the name and the first that does is not blacklisted; the numbers fit. -/
structure Db.UpdateOk (nmatch : Name → Name → Bool) (db : Db) (u : PolicyUpdate) : Prop where
  names : ∀ p ∈ db.participants, p.cloned ≠ none → (slot u.participants p.name).isNone = true
  order : u.orderAfter db.stands = u.participants.map PolicyParticipant.name
  rules : ∀ p ∈ db.participants, ∀ r ∈ db.participants, p.cloned = some r.handle → r.handle ≠ p.handle →
    (slot u.participants r.name).isSome = (u.ruleFor nmatch p.name).isSome ∧
      (u.ruleFor nmatch p.name).all (fun q => !q.blacklist) = true
  numbers : db.numPermissions < 2 ^ 16 ∧ db.numDomains < 2 ^ 16

/-! ## Databases -/

def Participant.numbers (p : Participant) : List Nat := [p.permissionsHandle, p.updatedPermHandle]

/-- Rules stand behind all others, and a participant behind all that point to it; handles and numbers for permissions
are given once. -/
structure Db.Sound (db : Db) : Prop where
  handles : (db.participants.map Participant.handle).Nodup
  bounded : ∀ p ∈ db.participants, p.handle ≤ db.numIds
  order : db.participants.Pairwise fun a b => (a.cloned = none → b.cloned = none) ∧ b.cloned ≠ some a.handle
  points : ∀ p ∈ db.participants, ∀ handle, p.cloned = some handle → ∃ r ∈ db.participants, r.handle = handle
  names : ∀ p ∈ db.participants, ∀ r ∈ db.participants, p.cloned = none → r.cloned = none → p.name = r.name → p = r
  stale : ∀ p ∈ db.participants, p.refreshed = false
  inputNumber : ∀ p ∈ db.participants, p.cloned ≠ none → p.inputNumber = 0
  numbers : ∀ p ∈ db.participants, ∀ n ∈ p.numbers, n ≤ db.numPermissions
  distinct : ∀ p ∈ db.participants, ∀ r ∈ db.participants, ∀ n ≠ 0, n ∈ p.numbers → n ∈ r.numbers → p.handle = r.handle
  domains : ∀ d ∈ db.domains, 1 ≤ d.handle ∧ d.handle ≤ db.numDomains

def Db.Honours (db : Db) (held : List (Nat × Nat)) : Prop :=
  ∀ hp ∈ held, ∃ domain n, hp.2 = Db.permOf domain n ∧ 1 ≤ domain ∧ domain ≤ db.numDomains ∧ n ≤ db.numPermissions ∧
    ∀ p ∈ db.participants, n ≠ 0 → n ∈ p.numbers → p.handle = hp.1

/-! ## The clean-up of clones -/

def keepClones (keeps : Participant → Bool) : Nat → List Participant → List Participant × Nat
  | n, [] => ([], n)
  | n, p :: rest =>
    if p.cloned = some p.handle then (p :: (keepClones keeps n rest).1, (keepClones keeps n rest).2)
    else if keeps p then
      ({ p with updatedPermHandle := n + 1 } :: (keepClones keeps (n + 1) rest).1, (keepClones keeps (n + 1) rest).2)
    else keepClones keeps n rest

section

variable {keeps : Participant → Bool} {p : Participant}

theorem cleanupParticipants_of_clones {rest : List Participant} : ∀ (clones done : List Participant) (n : Nat),
    (∀ p ∈ clones, p.refreshed = false ∧ p.cloned ≠ none) →
    ((done ++ (clones ++ rest)).map Participant.handle).Nodup →
    (clones ++ rest).Pairwise (fun a b => b.cloned ≠ some a.handle) →
    (∀ p ∈ clones, ∀ handle, p.cloned = some handle → handle ≠ p.handle →
      ∃ r ∈ clones ++ rest, r.handle = handle ∧ r.refreshed = keeps p) →
    cleanupParticipants done n (clones ++ rest) =
      cleanupParticipants (done ++ (keepClones keeps n clones).1) (keepClones keeps n clones).2 rest
  | [], done, n, _, _, _, _ => by simp [keepClones]
  | p :: clones, done, n, hclones, hnodup, horder, hpoints => by
    obtain ⟨hfirst, horder'⟩ := pairwise_cons.1 horder
    have hclones' := (forall_mem_cons.1 hclones).2
    have hpoints' : ∀ q ∈ clones, ∀ handle, q.cloned = some handle → handle ≠ q.handle →
        ∃ r ∈ clones ++ rest, r.handle = handle ∧ r.refreshed = keeps q := by
      intro q hq handle hcloned hne
      obtain ⟨r, hr, hh, href⟩ := hpoints q (mem_cons_of_mem _ hq) handle hcloned hne
      rcases mem_cons.1 hr with rfl | hr
      · exact absurd (hh ▸ hcloned) (hfirst q (mem_append_left _ hq))
      · exact ⟨r, hr, hh, href⟩
    -- whatever is done with it, the handles stay different
    have hmoved : ∀ p', p'.handle = p.handle → (((done ++ [p']) ++ (clones ++ rest)).map Participant.handle).Nodup := by
      intro p' hp'
      simpa [hp'] using hnodup
    obtain ⟨href, hcloned⟩ := hclones p mem_cons_self
    obtain ⟨handle, hhandle⟩ := ne_none_iff_exists'.1 hcloned
    rw [cons_append, cleanupParticipants, if_neg (by rw [href]; decide), hhandle, keepClones]
    dsimp only
    by_cases hself : handle = p.handle
    · rw [if_pos hself, if_pos (by rw [hhandle, hself]),
        cleanupParticipants_of_clones clones _ n hclones' (hmoved p rfl) horder' hpoints', append_assoc]
      rfl
    obtain ⟨r, hr, hrh, hrr⟩ := hpoints p mem_cons_self handle hhandle hself
    have hfind : (done ++ p :: (clones ++ rest)).find? (·.handle == handle) = some r := by
      rw [← hrh]
      exact find?_handle hnodup (mem_append_right _ hr)
    have hnot : ¬ p.cloned = some p.handle := by
      rw [hhandle]
      exact fun h => hself (some.inj h)
    rw [if_neg hself, hfind, if_neg hnot]
    dsimp only
    by_cases hkeep : keeps p = true
    · rw [if_pos (hrr.trans hkeep), if_pos hkeep, ← hhandle,
        cleanupParticipants_of_clones clones _ (n + 1) hclones' (hmoved { p with updatedPermHandle := n + 1 } rfl)
          horder'
          hpoints', append_assoc]
      rfl
    · rw [if_neg (by rw [hrr]; exact hkeep), if_neg hkeep]
      refine cleanupParticipants_of_clones clones done n hclones' ?_ horder' hpoints'
      exact hnodup.sublist (((sublist_cons_self _ _).append_left _).map _)

def Kept (keeps : Participant → Bool) (n n' : Nat) (p p' : Participant) : Prop :=
  (p.cloned = some p.handle ∧ p' = p) ∨
    (p.cloned ≠ some p.handle ∧ keeps p = true ∧ ∃ m, n < m ∧ m ≤ n' ∧ p' = { p with updatedPermHandle := m })

theorem keepClones_le : ∀ (n : Nat) (clones : List Participant),
    n ≤ (keepClones keeps n clones).2 ∧ (keepClones keeps n clones).2 ≤ n + clones.length
  | n, [] => ⟨le_refl _, le_refl _⟩
  | n, p :: rest => by
    have h := keepClones_le n rest
    have h' := keepClones_le (n + 1) rest
    unfold keepClones
    rw [length_cons]
    split
    · exact ⟨h.1, by omega⟩
    · split
      · exact ⟨by omega, by omega⟩
      · exact ⟨h.1, by omega⟩

theorem Kept.mono (h : Kept keeps n n' p p') (hm : m ≤ n) (hm' : n' ≤ m') : Kept keeps m m' p p' := by
  rcases h with hself | ⟨hne, hkeep, k, hk, hk', rfl⟩
  · exact .inl hself
  · exact .inr ⟨hne, hkeep, k, by omega, by omega, rfl⟩

theorem mem_keepClones : ∀ {n : Nat} {clones : List Participant} {p' : Participant},
    p' ∈ (keepClones keeps n clones).1 → ∃ p ∈ clones, Kept keeps n (keepClones keeps n clones).2 p p'
  | n, [], p', h => by cases h
  | n, p :: rest, p', h => by
    unfold keepClones at h ⊢
    have hle := (@keepClones_le keeps (n + 1) rest).1
    by_cases hself : p.cloned = some p.handle
    · rw [if_pos hself] at h ⊢
      rcases mem_cons.1 h with rfl | h
      · exact ⟨p', mem_cons_self, .inl ⟨hself, rfl⟩⟩
      · obtain ⟨q, hq, hk⟩ := mem_keepClones h
        exact ⟨q, mem_cons_of_mem _ hq, hk⟩
    rw [if_neg hself] at h ⊢
    by_cases hkeep : keeps p = true
    · rw [if_pos hkeep] at h ⊢
      rcases mem_cons.1 h with rfl | h
      · exact ⟨p, mem_cons_self, .inr ⟨hself, hkeep, n + 1, by omega, hle, rfl⟩⟩
      · obtain ⟨q, hq, hk⟩ := mem_keepClones h
        exact ⟨q, mem_cons_of_mem _ hq, hk.mono (le_succ n) (le_refl _)⟩
    · rw [if_neg hkeep] at h ⊢
      obtain ⟨q, hq, hk⟩ := mem_keepClones h
      exact ⟨q, mem_cons_of_mem _ hq, hk⟩

theorem exists_keepClones : ∀ {n : Nat} {clones : List Participant} {p : Participant}, p ∈ clones →
    (p.cloned = some p.handle ∨ keeps p = true) →
      ∃ p' ∈ (keepClones keeps n clones).1, p'.handle = p.handle ∧ p'.name = p.name ∧ p'.cloned = p.cloned
  | n, q :: rest, p, hp, h => by
    unfold keepClones
    rcases mem_cons.1 hp with rfl | hp
    · split
      · exact ⟨p, mem_cons_self, rfl, rfl, rfl⟩
      · rename_i hself
        rw [if_pos (h.resolve_left hself)]
        exact ⟨_, mem_cons_self, rfl, rfl, rfl⟩
    · split
      · obtain ⟨p', hp', heq⟩ := exists_keepClones (n := n) hp h
        exact ⟨p', mem_cons_of_mem _ hp', heq⟩
      split
      · obtain ⟨p', hp', heq⟩ := exists_keepClones (n := n + 1) hp h
        exact ⟨p', mem_cons_of_mem _ hp', heq⟩
      · exact exists_keepClones hp h

theorem keepClones_handles : ∀ (n : Nat) (clones : List Participant),
    ((keepClones keeps n clones).1.map Participant.handle).Sublist (clones.map Participant.handle)
  | n, [] => List.Sublist.refl _
  | n, p :: rest => by
    unfold keepClones
    split
    · exact (keepClones_handles n rest).cons_cons _
    · split
      · exact (keepClones_handles (n + 1) rest).cons_cons _
      · exact (keepClones_handles n rest).cons _

theorem keepClones_distinct : ∀ {n : Nat} {clones : List Participant}, (∀ p ∈ clones, p.updatedPermHandle ≤ n) →
    ∀ p ∈ (keepClones keeps n clones).1, ∀ r ∈ (keepClones keeps n clones).1, n < p.updatedPermHandle →
      p.updatedPermHandle = r.updatedPermHandle → p.handle = r.handle
  | n, [], _, p, hp, _, _, _, _ => by cases hp
  | n, q :: rest, hold, p, hp, r, hr, hlt, heq => by
    have hrest := (forall_mem_cons.1 hold).2
    have hq := hold q mem_cons_self
    -- what comes from the rest has an old number or a later one
    have hlater : ∀ p ∈ (keepClones keeps (n + 1) rest).1, n < p.updatedPermHandle → n + 1 < p.updatedPermHandle := by
      intro p hp hlt
      obtain ⟨p0, hp0, ⟨-, rfl⟩ | ⟨-, -, m, hm, -, rfl⟩⟩ := mem_keepClones hp
      · exact absurd (hrest p hp0) (by omega)
      · exact hm
    unfold keepClones at hp hr
    by_cases hself : q.cloned = some q.handle
    · rw [if_pos hself] at hp hr
      rcases mem_cons.1 hp with rfl | hp
      · omega
      · rcases mem_cons.1 hr with rfl | hr
        · omega
        · exact keepClones_distinct hrest p hp r hr hlt heq
    rw [if_neg hself] at hp hr
    by_cases hkeep : keeps q = true
    · rw [if_pos hkeep] at hp hr
      rcases mem_cons.1 hp with rfl | hp
      · rcases mem_cons.1 hr with rfl | hr
        · rfl
        · have := hlater r hr (by omega)
          dsimp only at heq
          omega
      · have hlt' := hlater p hp hlt
        rcases mem_cons.1 hr with rfl | hr
        · dsimp only at heq
          omega
        · exact keepClones_distinct (fun p hp => le_succ_of_le (hrest p hp)) p hp r hr hlt' heq
    · rw [if_neg hkeep] at hp hr
      exact keepClones_distinct hrest p hp r hr hlt heq

end

/-! ## An update -/

section

variable {nmatch : Name → Name → Bool} {db db1 : Db} {u : PolicyUpdate} {topics : Name → List Rule}

def Db.cloneList (db : Db) : List Participant := db.participants.filter (·.cloned.isSome)

theorem split_of_order : ∀ {ps : List Participant},
    ps.Pairwise (fun a b => (a.cloned = none → b.cloned = none) ∧ b.cloned ≠ some a.handle) →
      ps = ps.filter (·.cloned.isSome) ++ ps.filter (·.cloned.isNone)
  | [], _ => rfl
  | p :: ps, h => by
    obtain ⟨hfirst, hrest⟩ := pairwise_cons.1 h
    have ih := split_of_order hrest
    cases hc : p.cloned with
    | some handle => rw [filter_cons_of_pos (by rw [hc]; rfl), filter_cons_of_neg (by simp [hc]), cons_append, ← ih]
    | none =>
      -- behind a rule there are only rules
      have hnil : ps.filter (·.cloned.isSome) = [] := by
        refine filter_eq_nil_iff.2 fun q hq hsome => ?_
        rw [(hfirst q hq).1 hc] at hsome
        cases hsome
      rw [hnil, nil_append] at ih
      rw [filter_cons_of_neg (by simp [hc]), filter_cons_of_pos (by rw [hc]; rfl), hnil, nil_append, ← ih]

theorem Db.Sound.split (h : db.Sound) : db.participants = db.cloneList ++ db.ruleList := split_of_order h.order

theorem Db.Sound.fits (h : db.Sound) (hok : db.UpdateOk nmatch u) : db.Fits u.participants := by
  refine ⟨h.handles, h.bounded, fun q hq p hp r hr hpname hrname => ?_⟩
  have hrule : ∀ p ∈ db.participants, p.name = q.name → p.cloned = none := by
    intro p hp hname
    by_contra hcloned
    have hnone := hok.names p hp hcloned
    rw [isNone_iff_eq_none, hname] at hnone
    exact slot_none.1 hnone q hq rfl
  exact h.names p hp r hr (hrule p hp hpname) (hrule r hr hrname) (hpname.trans hrname.symm)

def PolicyUpdate.keeps (u : PolicyUpdate) (db : Db) (p : Participant) : Bool :=
  db.participants.any fun r => p.cloned == some r.handle && (slot u.participants r.name).isSome

theorem keeps_of_points (h : db.Sound) (hr : r ∈ db.participants) (hcloned : p.cloned = some r.handle) :
    u.keeps db p = (slot u.participants r.name).isSome := by
  unfold PolicyUpdate.keeps
  rw [Bool.eq_iff_iff, List.any_eq_true]
  constructor
  · rintro ⟨r', hr', hk⟩
    simp only [hcloned, Bool.and_eq_true, beq_iff_eq, some.injEq] at hk
    rw [eq_of_handle h.handles hr hr' hk.1]
    exact hk.2
  · intro hs
    exact ⟨r, hr, by simp [hcloned, hs]⟩

theorem set_refreshed (h : p.refreshed = false) :
    (u.set topics p).refreshed = (slot u.participants p.name).isSome := by
  cases hs : slot u.participants p.name with
  | none =>
    rw [set_of_none hs, h]
    rfl
  | some qi =>
    rw [set_of_slot hs]
    rfl

theorem set_cloned (p : Participant) : (u.set topics p).cloned = p.cloned := by
  unfold PolicyUpdate.set settled
  split <;> rfl

def PolicyUpdate.keptClones (u : PolicyUpdate) (db : Db) : List Participant × Nat :=
  keepClones (u.keeps db) db.numPermissions db.cloneList

def PolicyUpdate.ruleLeft (u : PolicyUpdate) (topics : Name → List Rule) (db : Db) (q : PolicyParticipant) :
    Participant :=
  cleanupStaleParticipant (u.set topics (db.entryFor u.participants q))

def PolicyUpdate.left (u : PolicyUpdate) (topics : Name → List Rule) (db : Db) : List Participant :=
  (u.keptClones db).1 ++ u.participants.map (u.ruleLeft topics db)

theorem cleanup_of_sound (h : db.Sound) (hok : db.UpdateOk nmatch u) (hpassed : Passed db u topics db1) :
    cleanupParticipants [] db1.numPermissions (reorderParticipants db1.inputCounter db1.participants) =
      some (u.left topics db, (u.keptClones db).2) := by
  have hfit := h.fits hok
  have hfresh : ∀ p ∈ db.freshFor u.participants, p.cloned = none ∧ p.refreshed = false := by
    intro p hp
    obtain ⟨_, _, _, rfl, _⟩ := mem_freshFor hp
    exact ⟨rfl, rfl⟩
  have hclones : ∀ p ∈ db.cloneList, p ∈ db.participants ∧ p.cloned ≠ none := by
    intro p hp
    obtain ⟨hp, hsome⟩ := mem_filter.1 hp
    exact ⟨hp, isSome_iff_ne_none.1 hsome⟩
  have hrules : ∀ p ∈ db.ruleList ++ db.freshFor u.participants, p.cloned = none := by
    intro p hp
    rcases mem_append.1 hp with hp | hp
    · simpa using (mem_filter.1 hp).2
    · exact (hfresh p hp).1
  -- the clones are not set and not moved
  have hps : db1.participants = db.cloneList ++ (db.ruleList ++ db.freshFor u.participants).map (u.set topics) := by
    have hsame : db.cloneList.map (u.set topics) = db.cloneList := by
      conv_rhs => rw [← map_id db.cloneList]
      refine map_congr_left fun p hp => ?_
      obtain ⟨hp, hcloned⟩ := hclones p hp
      exact set_of_none (isNone_iff_eq_none.1 (hok.names p hp hcloned))
    have hsplit : db.participants ++ db.freshFor u.participants =
        db.cloneList ++ (db.ruleList ++ db.freshFor u.participants) := by
      rw [← append_assoc, ← h.split]
    rw [hpassed.participants, hsplit, map_append, hsame]
  obtain ⟨ruled, hruled⟩ : ∃ ruled, ruled = reorderParticipants db1.inputCounter
      ((db.ruleList ++ db.freshFor u.participants).map (u.set topics)) := ⟨_, rfl⟩
  have hreorder : reorderParticipants db1.inputCounter db1.participants = db.cloneList ++ ruled := by
    rw [hps, hruled]
    refine sortTo_append_right fun p hp => ?_
    obtain ⟨hp, hcloned⟩ := hclones p hp
    rw [h.inputNumber p hp hcloned, mem_range'_1]
    omega
  have hruled' : ∀ p ∈ ruled, p.cloned = none := by
    intro p hp
    rw [hruled, mem_reorderParticipants] at hp
    obtain ⟨p0, hp0, rfl⟩ := mem_map.1 hp
    rw [set_cloned]
    exact hrules p0 hp0
  have hmem : ∀ p ∈ db.participants, u.set topics p ∈ db.cloneList ++ ruled := by
    intro p hp
    rw [← hreorder, mem_reorderParticipants, hpassed.participants]
    exact mem_map_of_mem (mem_append_left _ hp)
  have hnodup : (([] ++ (db.cloneList ++ ruled)).map Participant.handle).Nodup := by
    have hperm : (reorderParticipants db1.inputCounter db1.participants).Perm db1.participants := FirstMatch.sortTo_perm
    rw [nil_append, ← hreorder, (hperm.map _).nodup_iff, hpassed.participants, set_handles]
    exact hfit.handles_withFresh u.nodup
  have horder : (db.cloneList ++ ruled).Pairwise fun a b => b.cloned ≠ some a.handle := by
    rw [pairwise_append]
    refine ⟨(h.order.imp fun hab => hab.2).filter _, ?_, fun a _ b hb => ?_⟩
    · exact pairwise_of_forall_mem_list fun a _ b hb => by rw [hruled' b hb]; nofun
    · rw [hruled' b hb]
      nofun
  have hloop := @cleanupParticipants_of_clones (u.keeps db) ruled db.cloneList [] db.numPermissions
    (fun p hp => ⟨h.stale p (hclones p hp).1, (hclones p hp).2⟩) hnodup horder (by
      intro p hp handle hcloned _
      obtain ⟨r, hr, rfl⟩ := h.points p (hclones p hp).1 handle hcloned
      refine ⟨u.set topics r, hmem r hr, settled_handle _ _ _ r, ?_⟩
      rw [set_refreshed (h.stale r hr), keeps_of_points h hr hcloned])
  -- of the rules, those of the policy are left
  have hfilter := filter_reorderParticipants topics hfit h.stale hok.order
  rw [← hpassed.participants, ← hpassed.inputCounter, hreorder, filter_append] at hfilter
  have hnone : db.cloneList.filter (·.refreshed) = [] :=
    filter_eq_nil_iff.2 fun p hp => by simp [h.stale p (hclones p hp).1]
  rw [hnone, nil_append] at hfilter
  rw [hreorder, hpassed.numPermissions, hloop, cleanupParticipants_of_rules _ ruled _ hruled', hfilter, List.map_map]
  rfl

def PolicyUpdate.finished (u : PolicyUpdate) (nmatch : Name → Name → Bool) (topics : Name → List Rule) (db : Db)
    (p : Participant) : Participant :=
  optimizeParticipant (rematch nmatch (u.left topics db) p)

theorem policyUpdate_of_sound (h : db.Sound) (hok : db.UpdateOk nmatch u) :
    ∃ topics, Passed db u topics (db.policyPasses u) ∧ db.policyUpdate nmatch u = some { db.policyPasses u with
      participants := (u.left topics db).map (u.finished nmatch topics db)
      domains := (cleanupDomains (db.policyPasses u).domains).map optimizeDomain
      numPermissions := (u.keptClones db).2 } := by
  obtain ⟨topics, hpassed⟩ := passed_policyPasses (h.fits hok)
  refine ⟨topics, hpassed, ?_⟩
  unfold Db.policyUpdate Db.updateDone
  rw [cleanup_of_sound h hok hpassed, map_some]
  dsimp only
  rw [List.map_map]
  rfl

theorem finished_fields (p : Participant) : (u.finished nmatch topics db p).handle = p.handle ∧
    (u.finished nmatch topics db p).name = p.name ∧ (u.finished nmatch topics db p).refreshed = p.refreshed ∧
    (u.finished nmatch topics db p).inputNumber = p.inputNumber ∧
    (u.finished nmatch topics db p).numbers = p.numbers := by
  unfold PolicyUpdate.finished rematch
  split
  · exact ⟨rfl, rfl, rfl, rfl, rfl⟩
  split
  · exact ⟨rfl, rfl, rfl, rfl, rfl⟩
  · split <;> exact ⟨rfl, rfl, rfl, rfl, rfl⟩

theorem entryFor_rule (hok : db.UpdateOk nmatch u) (hq : q ∈ u.participants) :
    (db.entryFor u.participants q).cloned = none := by
  rcases mem_append.1 (entryFor_mem db hq) with hold | hnew
  · by_contra hcloned
    have hnone := hok.names _ hold hcloned
    rw [isNone_iff_eq_none, entryFor_name db hq] at hnone
    exact slot_none.1 hnone q hq rfl
  · obtain ⟨_, _, _, hblank, _⟩ := mem_freshFor hnew
    rw [hblank]
    rfl

theorem ruleLeft_fields (hok : db.UpdateOk nmatch u) (topics : Name → List Rule) (hq : q ∈ u.participants) :
    (u.ruleLeft topics db q).handle = (db.entryFor u.participants q).handle ∧ (u.ruleLeft topics db q).name = q.name ∧
      (u.ruleLeft topics db q).cloned = none ∧ (u.ruleLeft topics db q).refreshed = false ∧
      (u.ruleLeft topics db q).numbers = (db.entryFor u.participants q).numbers := by
  refine ⟨settled_handle _ _ _ _, (settled_name _ _ _ _).trans (entryFor_name db hq),
    (set_cloned _).trans (entryFor_rule hok hq), rfl, ?_⟩
  unfold PolicyUpdate.ruleLeft PolicyUpdate.set settled
  split <;> rfl

theorem mem_left (hp : p ∈ u.left topics db) :
    (∃ p0 ∈ db.cloneList, Kept (u.keeps db) db.numPermissions (u.keptClones db).2 p0 p) ∨
      ∃ q ∈ u.participants, p = u.ruleLeft topics db q := by
  rcases mem_append.1 hp with hp | hp
  · exact .inl (mem_keepClones hp)
  · obtain ⟨q, hq, rfl⟩ := mem_map.1 hp
    exact .inr ⟨q, hq, rfl⟩

theorem mem_left_of_rule (hq : q ∈ u.participants) : u.ruleLeft topics db q ∈ u.left topics db :=
  mem_append_right _ (mem_map.2 ⟨q, hq, rfl⟩)

theorem Kept.fields (h : Kept keeps n n' p p') :
    p'.handle = p.handle ∧ p'.name = p.name ∧ p'.cloned = p.cloned ∧ p'.refreshed = p.refreshed ∧
      p'.inputNumber = p.inputNumber := by
  rcases h with ⟨-, rfl⟩ | ⟨-, -, m, -, -, rfl⟩ <;> exact ⟨rfl, rfl, rfl, rfl, rfl⟩

theorem mem_cloneList : p ∈ db.cloneList ↔ p ∈ db.participants ∧ p.cloned ≠ none := by
  unfold Db.cloneList
  rw [mem_filter, isSome_iff_ne_none]

theorem find?_left (hok : db.UpdateOk nmatch u) (topics : Name → List Rule) (name : Name) :
    (u.left topics db).find? (fun r => r.cloned.isNone && r.admits nmatch name) =
      (u.ruleFor nmatch name).map (u.ruleLeft topics db) := by
  have hclones : (u.keptClones db).1.find? (fun r => r.cloned.isNone && r.admits nmatch name) = none := by
    refine find?_eq_none.2 fun p hp hfound => ?_
    obtain ⟨p0, hp0, hkept⟩ := mem_keepClones hp
    have hcloned := (mem_cloneList.1 hp0).2
    rw [← hkept.fields.2.2.1] at hcloned
    simp [isNone_iff_eq_none, hcloned] at hfound
  unfold PolicyUpdate.left PolicyUpdate.ruleFor
  rw [find?_append, hclones, none_or, find?_map]
  refine congrArg _ (find?_congr fun q hq => ?_)
  obtain ⟨-, hname, hcloned, -⟩ := ruleLeft_fields hok topics hq
  rw [Function.comp_apply, hcloned, isNone_none, Bool.true_and]
  unfold Participant.admits PolicyParticipant.admits
  rw [hname]

theorem finished_rule (hok : db.UpdateOk nmatch u) {q : PolicyParticipant} (hq : q ∈ u.participants) :
    (u.finished nmatch topics db (u.ruleLeft topics db q)).cloned = none := by
  have hcloned := (ruleLeft_fields hok topics hq).2.2.1
  unfold PolicyUpdate.finished
  rw [rematch_of_rule hcloned]
  exact hcloned

theorem finished_clone (h : db.Sound) (hok : db.UpdateOk nmatch u) (hp0 : p0 ∈ db.cloneList)
    (hkept : Kept (u.keeps db) db.numPermissions (u.keptClones db).2 p0 p) :
    (p0.cloned = some p0.handle ∧ (u.finished nmatch topics db p).cloned = some p.handle) ∨
      ∃ q ∈ u.participants, u.ruleFor nmatch p0.name = some q ∧
        (u.finished nmatch topics db p).cloned = some (u.ruleLeft topics db q).handle := by
  obtain ⟨hmem, hcloned⟩ := mem_cloneList.1 hp0
  rcases hkept with ⟨hself, rfl⟩ | ⟨hne, hkeep, m, -, -, rfl⟩
  · refine .inl ⟨hself, ?_⟩
    unfold PolicyUpdate.finished rematch
    rw [hself]
    dsimp only
    rw [if_pos rfl]
    exact hself
  right
  obtain ⟨handle, hhandle⟩ := ne_none_iff_exists'.1 hcloned
  obtain ⟨r, hr, rfl⟩ := h.points p0 hmem handle hhandle
  have hrp : r.handle ≠ p0.handle := fun heq => hne (heq ▸ hhandle)
  have hsome := (hok.rules p0 hmem r hr hhandle hrp).1
  rw [← keeps_of_points h hr hhandle, hkeep] at hsome
  obtain ⟨q, hq⟩ := isSome_iff_exists.1 hsome.symm
  refine ⟨q, mem_of_find?_eq_some hq, hq, ?_⟩
  have hfind := find?_left hok topics p0.name
  rw [hq] at hfind
  unfold PolicyUpdate.finished rematch
  rw [hhandle]
  dsimp only
  rw [if_neg hrp, hfind]
  rfl

theorem finished_clone_ne (h : db.Sound) (hok : db.UpdateOk nmatch u) (hp0 : p0 ∈ db.cloneList)
    (hkept : Kept (u.keeps db) db.numPermissions (u.keptClones db).2 p0 p) :
    (u.finished nmatch topics db p).cloned ≠ none := by
  rcases finished_clone h hok hp0 hkept with ⟨-, hc⟩ | ⟨_, -, -, hc⟩ <;> rw [hc] <;> nofun

theorem entryFor_ne_clone (h : db.Sound) (hok : db.UpdateOk nmatch u) (hq : q ∈ u.participants)
    (hp : p ∈ db.cloneList) : (db.entryFor u.participants q).handle ≠ p.handle := by
  intro heq
  obtain ⟨hmem, hcloned⟩ := mem_cloneList.1 hp
  have hp' : p ∈ db.merged u.participants := mem_append_left _ hmem
  rw [← eq_of_handle ((h.fits hok).handles_withFresh u.nodup) (entryFor_mem db hq) hp' heq] at hcloned
  exact hcloned (entryFor_rule hok hq)

theorem left_handles (h : db.Sound) (hok : db.UpdateOk nmatch u) (topics : Name → List Rule) :
    ((u.left topics db).map Participant.handle).Nodup := by
  have hclones := @keepClones_handles (u.keeps db) db.numPermissions db.cloneList
  unfold PolicyUpdate.left
  rw [map_append, nodup_append]
  refine ⟨?_, ?_, ?_⟩
  · exact h.handles.sublist (hclones.trans (filter_sublist.map _))
  · rw [List.map_map]
    refine List.Nodup.map_on (fun a ha b hb hab => ?_) u.nodup.of_map
    have hab' : (db.entryFor u.participants a).handle = (db.entryFor u.participants b).handle := by
      rw [← (ruleLeft_fields hok topics ha).1, ← (ruleLeft_fields hok topics hb).1]
      exact hab
    have hentry := eq_of_handle ((h.fits hok).handles_withFresh u.nodup) (entryFor_mem db ha) (entryFor_mem db hb) hab'
    refine inj_on_of_nodup_map u.nodup ha hb ?_
    rw [← entryFor_name db ha, hentry, entryFor_name db hb]
  · rintro x hx y hy rfl
    obtain ⟨p, hp, rfl⟩ := mem_map.1 (hclones.subset hx)
    obtain ⟨r, hr, hrp⟩ := mem_map.1 hy
    obtain ⟨q, hq, rfl⟩ := mem_map.1 hr
    exact entryFor_ne_clone h hok hq hp ((ruleLeft_fields hok topics hq).1.symm.trans hrp)

theorem left_numbers (hok : db.UpdateOk nmatch u) (hp : p ∈ u.left topics db) (hn : n ∈ p.numbers) (hzero : n ≠ 0) :
    (∃ p0 ∈ db.participants, p0.handle = p.handle ∧ n ∈ p0.numbers) ∨
      (p ∈ (u.keptClones db).1 ∧ p.updatedPermHandle = n ∧ db.numPermissions < n ∧ n ≤ (u.keptClones db).2) := by
  rcases mem_append.1 hp with hclone | hrule
  · obtain ⟨p0, hp0, hkept⟩ := mem_keepClones hclone
    have hmem := (mem_cloneList.1 hp0).1
    rcases hkept with ⟨-, rfl⟩ | ⟨-, -, m, hm, hm', rfl⟩
    · exact .inl ⟨p, hmem, rfl, hn⟩
    simp only [Participant.numbers, mem_cons, not_mem_nil, or_false] at hn
    rcases hn with hn | hn
    · exact .inl ⟨p0, hmem, rfl, by simp [Participant.numbers, hn]⟩
    · exact .inr ⟨hclone, hn.symm, by omega, by rw [hn]; exact hm'⟩
  obtain ⟨q, hq, rfl⟩ := mem_map.1 hrule
  obtain ⟨hh, -, -, -, hnum⟩ := ruleLeft_fields hok topics hq
  rw [hnum] at hn
  rcases mem_append.1 (entryFor_mem db hq) with hold | hnew
  · exact .inl ⟨_, hold, hh.symm, hn⟩
  -- one that was added has none
  obtain ⟨_, _, _, hblank, _⟩ := mem_freshFor hnew
  rw [hblank] at hn
  simp [Participant.numbers, blank, hzero] at hn

theorem left_distinct (h : db.Sound) (hok : db.UpdateOk nmatch u) (hp : p ∈ u.left topics db)
    (hr : r ∈ u.left topics db) (hzero : n ≠ 0) (hnp : n ∈ p.numbers) (hnr : n ∈ r.numbers) :
    p.handle = r.handle := by
  rcases left_numbers hok hp hnp hzero with ⟨p0, hp0, hph, hn⟩ | ⟨hpk, hpn, hlt, -⟩
  · rcases left_numbers hok hr hnr hzero with ⟨r0, hr0, hrh, hn'⟩ | ⟨-, -, hlt, -⟩
    · rw [← hph, ← hrh]
      exact h.distinct p0 hp0 r0 hr0 n hzero hn hn'
    · have := h.numbers p0 hp0 n hn
      omega
  · rcases left_numbers hok hr hnr hzero with ⟨r0, hr0, -, hn'⟩ | ⟨hrk, hrn, -, -⟩
    · have := h.numbers r0 hr0 n hn'
      omega
    · refine keepClones_distinct (fun p hp => ?_) p hpk r hrk (by rw [hpn]; exact hlt) (hpn.trans hrn.symm)
      exact h.numbers p (mem_cloneList.1 hp).1 _ (by simp [Participant.numbers])

theorem addPolicyDomain_handles (h : ∀ d ∈ db.domains, 1 ≤ d.handle ∧ d.handle ≤ db.numDomains) (domainId : Nat) :
    ∀ d ∈ (db.addPolicyDomain domainId).domains, 1 ≤ d.handle ∧
    d.handle ≤ (db.addPolicyDomain domainId).numDomains := by
  intro d hd
  unfold Db.addPolicyDomain at hd ⊢
  cases hf : db.domainHandle domainId with
  | some handle =>
    rw [hf] at hd
    obtain ⟨d0, hd0, rfl⟩ := mem_map.1 hd
    have hbound := h d0 hd0
    split <;> exact hbound
  | none =>
    rw [hf] at hd
    obtain ⟨d0, hd0, rfl⟩ := mem_map.1 hd
    have hbound : 1 ≤ d0.handle ∧ d0.handle ≤ db.numDomains + 1 := by
      rcases mem_append.1 hd0 with hold | hnew
      · have := h d0 hold
        omega
      · rw [mem_singleton.1 hnew]
        exact ⟨le_add_left 1 _, le_refl _⟩
    split <;> exact hbound

theorem addPolicyDomain_numDomains (db : Db) (domainId : Nat) :
    db.numDomains ≤ (db.addPolicyDomain domainId).numDomains := by
  unfold Db.addPolicyDomain
  split
  · exact le_refl _
  · exact le_succ _

theorem cleanupDomains_handle (hd : d ∈ (cleanupDomains ds).map optimizeDomain) :
    ∃ d0 ∈ ds, d.handle = d0.handle := by
  obtain ⟨d1, hd1, rfl⟩ := mem_map.1 hd
  obtain ⟨d0, hd0, heq⟩ := mem_filterMap.1 hd1
  split at heq
  · cases heq
    exact ⟨d0, hd0, rfl⟩
  · cases heq

theorem finished_cloned (h : db.Sound) (hok : db.UpdateOk nmatch u) (hp : p ∈ u.left topics db)
    (hcloned : (u.finished nmatch topics db p).cloned = some handle) :
    handle = p.handle ∨ ∃ q ∈ u.participants, handle = (u.ruleLeft topics db q).handle := by
  rcases mem_left hp with ⟨p0, hp0, hkept⟩ | ⟨q, hq, rfl⟩
  · rcases finished_clone h hok hp0 hkept with ⟨-, hc⟩ | ⟨q, hq, -, hc⟩
    · exact .inl (some.inj (hcloned.symm.trans hc))
    · exact .inr ⟨q, hq, some.inj (hcloned.symm.trans hc)⟩
  · rw [finished_rule hok hq] at hcloned
    cases hcloned

theorem left_order (h : db.Sound) (hok : db.UpdateOk nmatch u) (topics : Name → List Rule) :
    ((u.left topics db).map (u.finished nmatch topics db)).Pairwise fun a b =>
      (a.cloned = none → b.cloned = none) ∧ b.cloned ≠ some a.handle := by
  have hnodup := left_handles h hok topics
  have hclone : ∀ p ∈ (u.keptClones db).1, (u.finished nmatch topics db p).cloned ≠ none := by
    intro p hp
    obtain ⟨p0, hp0, hkept⟩ := mem_keepClones hp
    exact finished_clone_ne h hok hp0 hkept
  have hrule : ∀ a, ∀ b ∈ u.participants.map (u.ruleLeft topics db),
      ((u.finished nmatch topics db a).cloned = none → (u.finished nmatch topics db b).cloned = none) ∧
        (u.finished nmatch topics db b).cloned ≠ some (u.finished nmatch topics db a).handle := by
    refine fun a => forall_mem_map.2 fun q hq => ?_
    rw [finished_rule hok hq]
    exact ⟨fun _ => rfl, nofun⟩
  rw [pairwise_map]
  have hpair := pairwise_map.1 hnodup
  unfold PolicyUpdate.left at hpair ⊢
  rw [pairwise_append] at hpair ⊢
  refine ⟨?_, ?_, ?_⟩
  · refine List.Pairwise.imp_of_mem (fun {a b} ha hb hne => ⟨fun hnone => absurd hnone (hclone a ha), fun hc => ?_⟩)
      hpair.1
    rw [finished_fields a |>.1] at hc
    have hb' : b ∈ u.left topics db := mem_append_left _ hb
    rcases finished_cloned h hok hb' hc with heq | ⟨q, hq, heq⟩
    · exact hne heq
    · exact hpair.2.2 a ha _ (mem_map.2 ⟨q, hq, rfl⟩) heq
  · exact pairwise_of_forall_mem_list fun a _ b hb => hrule a b hb
  · exact fun a _ b hb => hrule a b hb

/-- **An update keeps the database sound**, and no number is given again. -/
theorem Db.Sound.update (h : db.Sound) (hok : db.UpdateOk nmatch u) (hdb' : db.policyUpdate nmatch u = some db') :
    db'.Sound := by
  obtain ⟨topics, hpassed, heq⟩ := policyUpdate_of_sound h hok
  obtain rfl := some.inj (hdb'.symm.trans heq)
  have hpoints : ∀ q ∈ u.participants, ∃ r ∈ (u.left topics db).map (u.finished nmatch topics db),
      r.handle = (u.ruleLeft topics db q).handle :=
    fun q hq => ⟨_, mem_map_of_mem (mem_left_of_rule hq), (finished_fields _).1⟩
  have hrule : ∀ p ∈ u.left topics db, (u.finished nmatch topics db p).cloned = none →
      ∃ q ∈ u.participants, p = u.ruleLeft topics db q := by
    intro p hp hpc
    exact (mem_left hp).resolve_left fun ⟨p0, hp0, hkept⟩ => finished_clone_ne h hok hp0 hkept hpc
  refine ⟨?_, forall_mem_map.2 fun p hp => ?_, left_order h hok topics, forall_mem_map.2 fun p hp handle hcloned => ?_,
    forall_mem_map.2 fun p hp => forall_mem_map.2 fun r hr hpc hrc hname => ?_, forall_mem_map.2 fun p hp => ?_,
    forall_mem_map.2 fun p hp hcloned => ?_, forall_mem_map.2 fun p hp n hn => ?_,
    forall_mem_map.2 fun p hp => forall_mem_map.2 fun r hr n hzero hnp hnr => ?_, fun d hd => ?_⟩
  · rw [List.map_map]
    have hcomp : Participant.handle ∘ u.finished nmatch topics db = Participant.handle :=
      funext fun p => (finished_fields p).1
    rw [hcomp]
    exact left_handles h hok topics
  · have hids := hpassed.numIds
    rw [(finished_fields p).1]
    rcases mem_left hp with ⟨p0, hp0, hkept⟩ | ⟨q, hq, rfl⟩
    · have := h.bounded p0 (mem_cloneList.1 hp0).1
      rw [hkept.fields.1]
      dsimp only
      omega
    · have hfresh := (h.fits hok).withFresh u.nodup
      rw [(ruleLeft_fields hok topics hq).1]
      exact le_trans (hfresh.bounded _ (entryFor_mem db hq)) (le_of_eq hids.symm)
  · rcases finished_cloned h hok hp hcloned with rfl | ⟨q, hq, rfl⟩
    · exact ⟨_, mem_map_of_mem hp, (finished_fields p).1⟩
    · exact hpoints q hq
  · rw [(finished_fields p).2.1, (finished_fields r).2.1] at hname
    obtain ⟨q, hq, rfl⟩ := hrule p hp hpc
    obtain ⟨q', hq', rfl⟩ := hrule r hr hrc
    rw [(ruleLeft_fields hok topics hq).2.1, (ruleLeft_fields hok topics hq').2.1] at hname
    rw [inj_on_of_nodup_map u.nodup hq hq' hname]
  · rw [(finished_fields p).2.2.1]
    rcases mem_left hp with ⟨p0, hp0, hkept⟩ | ⟨q, hq, rfl⟩
    · rw [hkept.fields.2.2.2.1]
      exact h.stale p0 (mem_cloneList.1 hp0).1
    · rfl
  · rw [(finished_fields p).2.2.2.1]
    rcases mem_left hp with ⟨p0, hp0, hkept⟩ | ⟨q, hq, rfl⟩
    · rw [hkept.fields.2.2.2.2]
      exact h.inputNumber p0 (mem_cloneList.1 hp0).1 (mem_cloneList.1 hp0).2
    · exact absurd (finished_rule hok hq) hcloned
  · rw [(finished_fields p).2.2.2.2] at hn
    have hle : db.numPermissions ≤ (u.keptClones db).2 := (keepClones_le _ _).1
    dsimp only
    by_cases hzero : n = 0
    · omega
    rcases left_numbers hok hp hn hzero with ⟨p0, hp0, -, hn0⟩ | ⟨-, -, -, hle'⟩
    · have := h.numbers p0 hp0 n hn0
      omega
    · exact hle'
  · rw [(finished_fields p).2.2.2.2] at hnp
    rw [(finished_fields r).2.2.2.2] at hnr
    rw [(finished_fields p).1, (finished_fields r).1]
    exact left_distinct h hok hp hr hzero hnp hnr
  · obtain ⟨d0, hd0, hhandle⟩ := cleanupDomains_handle hd
    rw [hpassed.domains] at hd0
    have hbound := @addPolicyDomain_handles db.updateStart h.domains u.domainId d0 hd0
    rw [hhandle]
    exact ⟨hbound.1, le_trans hbound.2 (le_of_eq hpassed.numDomains.symm)⟩

theorem Db.Honours.update (h : db.Sound) (hheld : db.Honours held) (hok : db.UpdateOk nmatch u)
    (hdb' : db.policyUpdate nmatch u = some db') : db'.Honours held := by
  obtain ⟨topics, hpassed, heq⟩ := policyUpdate_of_sound h hok
  obtain rfl := some.inj (hdb'.symm.trans heq)
  have hle : db.numPermissions ≤ (u.keptClones db).2 := (keepClones_le _ _).1
  have hdomains : db.numDomains ≤ (db.policyPasses u).numDomains := by
    rw [hpassed.numDomains]
    exact addPolicyDomain_numDomains db.updateStart u.domainId
  intro hp hmem
  obtain ⟨domain, n, hperm, hd, hd', hn, hown⟩ := hheld hp hmem
  refine ⟨domain, n, hperm, hd, le_trans hd' hdomains, le_trans hn hle, fun p' hp' hzero hnum => ?_⟩
  obtain ⟨p, hp, rfl⟩ := mem_map.1 hp'
  rw [(finished_fields p).2.2.2.2] at hnum
  rw [(finished_fields p).1]
  rcases left_numbers hok hp hnum hzero with ⟨p0, hp0, hh, hn0⟩ | ⟨-, -, hlt, -⟩
  · rw [← hh]
    exact hown p0 hp0 hzero hn0
  · omega

/-- **After an update connected participants follow its policy.** -/
theorem followsPolicy_update (h : db.Sound) (hheld : db.Honours held)
    (hok : db.UpdateOk nmatch u) : ∃ db', db.policyUpdate nmatch u = some db' ∧ FollowsPolicy nmatch held db u db' := by
  obtain ⟨topics, hpassed, heq⟩ := policyUpdate_of_sound h hok
  refine ⟨_, heq, ?_, ?_, (h.update hok heq).points⟩
  · rintro p hp ⟨handle, hcloned, hne⟩ q hq
    have hclone : p ∈ db.cloneList := mem_cloneList.2 ⟨hp, by rw [hcloned]; nofun⟩
    obtain ⟨r, hr, rfl⟩ := h.points p hp handle hcloned
    have hkeep : u.keeps db p = true := by
      rw [keeps_of_points h hr hcloned, (hok.rules p hp r hr hcloned hne).1, hq]
      rfl
    obtain ⟨p1, hp1, hh, hname, hc⟩ := @exists_keepClones (u.keeps db) db.numPermissions db.cloneList p hclone
      (.inr hkeep)
    refine ⟨_, mem_map_of_mem (mem_append_left _ hp1), (finished_fields p1).1.trans hh, ?_⟩
    have hqmem : q ∈ u.participants := mem_of_find?_eq_some hq
    obtain ⟨p2, hp2, hkept⟩ := mem_keepClones hp1
    -- it is the one that was there
    obtain rfl := eq_of_handle h.handles hp (mem_cloneList.1 hp2).1 (hh.symm.trans hkept.fields.1)
    refine ⟨_, mem_map_of_mem (mem_left_of_rule hqmem),
      (finished_fields _).2.1.trans (ruleLeft_fields hok topics hqmem).2.1, finished_rule hok hqmem, ?_⟩
    rw [(finished_fields (u.ruleLeft topics db q)).1]
    rcases finished_clone h hok hp2 hkept with ⟨hself, -⟩ | ⟨q', -, hq', hc'⟩
    · rw [hcloned] at hself
      exact absurd (some.inj hself) hne
    · rw [hq] at hq'
      rw [some.inj hq']
      exact hc'
  rintro p hp ⟨handle, hcloned, hne⟩ hblack perm hperm
  have hclone : p ∈ db.cloneList := mem_cloneList.2 ⟨hp, by rw [hcloned]; nofun⟩
  obtain ⟨r, hr, rfl⟩ := h.points p hp handle hcloned
  obtain ⟨hsome, hall⟩ := hok.rules p hp r hr hcloned hne
  have hnone : u.ruleFor nmatch p.name = none := by
    cases hf : u.ruleFor nmatch p.name with
    | none => rfl
    | some q =>
      rw [hf] at hall
      simp [hblack q hf] at hall
  have hkeep : u.keeps db p = false := by
    rw [keeps_of_points h hr hcloned, hsome, hnone]
    rfl
  obtain ⟨domain, n, hpermOf, hd, hd', hn, hown⟩ := hheld (p.handle, perm) hperm
  dsimp only at hpermOf hown
  obtain ⟨hn', hd''⟩ := hok.numbers
  rw [hpermOf]
  refine Db.passesNone_of_permPars (Db.permOf_ne_one hd (by omega)) (Db.permPars_of_unused (by omega) ?_)
  -- nobody is left with the number
  intro p' hp' hnum
  by_contra hzero
  obtain ⟨p1, hp1, rfl⟩ := mem_map.1 hp'
  have hnum' : n ∈ p1.numbers := by
    rw [← (finished_fields p1).2.2.2.2]
    simpa [Participant.numbers, eq_comm, or_comm] using hnum
  have hp₁h : p1.handle = p.handle := by
    rcases left_numbers hok hp1 hnum' hzero with ⟨p0, hp0, hh, hn0⟩ | ⟨-, -, hlt, -⟩
    · rw [← hh]
      exact hown p0 hp0 hzero hn0
    · omega
  rcases mem_left hp1 with ⟨p2, hp2, hkept⟩ | ⟨q, hq, rfl⟩
  · obtain rfl := eq_of_handle h.handles hp (mem_cloneList.1 hp2).1 (hp₁h.symm.trans hkept.fields.1)
    rcases hkept with ⟨hself, -⟩ | ⟨-, hk, -⟩
    · rw [hcloned] at hself
      exact hne (some.inj hself)
    · rw [hkeep] at hk
      cases hk
  · rw [(ruleLeft_fields hok topics hq).1] at hp₁h
    exact entryFor_ne_clone h hok hq hclone hp₁h

end

end Qeo.Access
