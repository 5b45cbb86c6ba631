import QeoCore.CacheOrder
/-!
# CacheRead — read conditions and reads

`hc_avail_condition` judges a sample by its own state and decides on the first one it does not skip; `hc_get` judges it
by the state of its instance, or of the cache, and goes on when the query does not match.
-/
namespace Qeo.Cache

open List Option Trace

variable {q : Option Query} {m : SkipMask}

structure SkipMask where
  read : Bool
  notRead : Bool
  newView : Bool
  oldView : Bool
  alive : Bool
  disposed : Bool
  noWriters : Bool
deriving DecidableEq

abbrev Query := Change → Option Bool

def SkipMask.skipsView (m : SkipMask) (newView : Bool) : Bool := (newView && m.newView) || (!newView && m.oldView)

def SkipMask.skipsSample (m : SkipMask) (unread newView : Bool) : Bool :=
  (!unread && m.read) || (unread && m.notRead) || m.skipsView newView

def skipped (m : SkipMask) (kind : Kind) (newView unread : Bool) : Bool :=
  m.skipsSample unread newView || (kind = .alive && m.alive) || (kind.disposed && m.disposed) ||
    (kind = .notAliveUnregistered && m.noWriters)

def skippedCheck (m : SkipMask) (kind : Kind) (newView unread : Bool) : Bool :=
  m.skipsSample unread newView || (kind = .alive && m.alive) || (kind.disposed && m.disposed) ||
    (kind.unregistered && m.noWriters)

/-! ## `hc_get` -/

def passes (q : Option Query) (c : Change) : Option Bool :=
  match q with
  | none => some true
  | some f => if c.length = 0 then some false else if c.db then some (f c == some true) else none

def hcGetList (q : Option Query) (skip : Change → Bool) : Nat → List Change → Option (List Change × Nat)
  | n, [] => some ([], n)
  | 0, _ :: _ => some ([], 0)
  | n + 1, c :: cs =>
    if skip c then hcGetList q skip (n + 1) cs
    else (passes q c).bind fun b =>
      if b then (hcGetList q skip n cs).map fun r => (c :: r.1, r.2) else hcGetList q skip (n + 1) cs

def hcGetWalk (m : SkipMask) (q : Option Query) (unread : Nat → Bool) :
    Nat → List Instance → Option (List Change × List Instance)
  | _, [] => some ([], [])
  | n, i :: is =>
    if m.skipsView i.newView then (hcGetWalk m q unread n is).map fun r => (r.1, i :: r.2)
    else (hcGetList q (fun c => skipped m i.kind i.newView (unread c.uid)) n i.list).bind fun l =>
      if l.2 = 0 && !i.list.isEmpty then some (l.1, { i with newView := false } :: is)
      else (hcGetWalk m q unread l.2 is).map fun r => (l.1 ++ r.1, { i with newView := false } :: r.2)

def hcGet (cfg : Config) (s : State) (m : SkipMask) (q : Option Query) (n : Nat) : Option (List Change × State) :=
  if cfg.multiInst && cfg.instOrder then
    (hcGetWalk m q s.unread n s.instances).map fun r => (r.1, { s with instances := r.2 })
  else (hcGetList q (fun c => skipped m s.kind s.newView (s.unread c.uid)) n s.changes).map fun l => (l.1, s)

/-! ## `hc_avail_condition` -/

def checks (q : Option Query) (c : Change) : Option Bool :=
  match q with
  | none => some true
  | some f => if c.db then some (f c == some true) else none

def hcCheckList (q : Option Query) (skip : Change → Bool) : List Change → Option (Option Bool)
  | [] => some none
  | c :: cs => if skip c then hcCheckList q skip cs else (checks q c).map some

def hcCheckWalk (m : SkipMask) (q : Option Query) (unread : Nat → Bool) : List Instance → Option (Option Bool)
  | [] => some none
  | i :: is =>
    if m.skipsView i.newView then hcCheckWalk m q unread is
    else (hcCheckList q (fun c => skippedCheck m c.kind i.newView (unread c.uid)) i.list).bind fun r =>
      match r with
      | some b => some (some b)
      | none => hcCheckWalk m q unread is

def hcAvailCondition (cfg : Config) (s : State) (m : SkipMask) (q : Option Query) : Option Bool :=
  ((if cfg.multiInst then hcCheckWalk m q s.unread s.instances
    else hcCheckList q (fun c => skippedCheck m c.kind s.newView (s.unread c.uid)) s.changes)).map fun r =>
      r == some true

/-! ## Closed forms -/

def walked (m : SkipMask) (skip : Instance → Change → Bool) (is : List Instance) : List Change :=
  is.flatMap fun i => if m.skipsView i.newView then [] else i.list.filter fun c => !skip i c

def readCandidates (cfg : Config) (s : State) (m : SkipMask) : List Change :=
  if cfg.multiInst && cfg.instOrder then
    walked m (fun i c => skipped m i.kind i.newView (s.unread c.uid)) s.instances
  else s.changes.filter fun c => !skipped m s.kind s.newView (s.unread c.uid)

def checkCandidates (cfg : Config) (s : State) (m : SkipMask) : List Change :=
  if cfg.multiInst then walked m (fun i c => skippedCheck m c.kind i.newView (s.unread c.uid)) s.instances
  else s.changes.filter fun c => !skippedCheck m c.kind s.newView (s.unread c.uid)

def Readable (q : Option Query) (c : Change) : Prop := q.isSome → c.length ≠ 0 → c.db = true

instance (q : Option Query) (c : Change) : Decidable (Readable q c) := by
  unfold Readable
  infer_instance

theorem passes_eq_none : passes q c = none ↔ ¬ Readable q c := by
  unfold passes Readable
  cases q with
  | none => simp
  | some f => grind

def chosen (q : Option Query) (l : List Change) : List Change := l.filter fun c => passes q c = some true

theorem hcGetList_eq : ∀ {l : List Change} {n : Nat}, (∀ c ∈ l.filter fun c => !skip c, Readable q c) →
    hcGetList q skip n l = some ((chosen q (l.filter fun c => !skip c)).take n,
      n - (chosen q (l.filter fun c => !skip c)).length)
  | [], n, _ => by
    unfold hcGetList chosen
    simp
  | c :: cs, 0, _ => by
    unfold hcGetList
    simp
  | c :: cs, n + 1, hr => by
    unfold hcGetList
    cases hs : skip c with
    | true =>
      rw [filter_cons_of_neg (by simp [hs])] at hr ⊢
      exact hcGetList_eq hr
    | false =>
      rw [filter_cons_of_pos (by simp [hs])] at hr ⊢
      rw [if_neg Bool.false_ne_true]
      have hrest := (forall_mem_cons.1 hr).2
      cases hp : passes q c with
      | none => exact absurd (hr c mem_cons_self) (passes_eq_none.1 hp)
      | some b =>
        rw [bind_some]
        cases b with
        | true =>
          have hch : chosen q (c :: cs.filter fun c => !skip c) = c :: chosen q (cs.filter fun c => !skip c) :=
            filter_cons_of_pos (by simp [hp])
          rw [hcGetList_eq hrest, hch, length_cons, Nat.add_sub_add_right]
          rfl
        | false =>
          have hch : chosen q (c :: cs.filter fun c => !skip c) = chosen q (cs.filter fun c => !skip c) :=
            filter_cons_of_neg (by simp [hp])
          rw [if_neg Bool.false_ne_true, hcGetList_eq hrest, hch]

theorem hcGetList_none : ∀ {l : List Change} {n : Nat}, l.length < n →
    (∃ c ∈ l.filter fun c => !skip c, ¬ Readable q c) → hcGetList q skip n l = none
  | [], n, _, h => by
    obtain ⟨c, hc, -⟩ := h
    cases hc
  | c :: cs, 0, hn, _ => absurd hn (Nat.not_lt_zero _)
  | c :: cs, n + 1, hn, h => by
    have hn : cs.length < n := Nat.lt_of_succ_lt_succ hn
    unfold hcGetList
    cases hs : skip c with
    | true =>
      rw [filter_cons_of_neg (by simp [hs])] at h
      exact hcGetList_none (Nat.lt_succ_of_lt hn) h
    | false =>
      rw [filter_cons_of_pos (by simp [hs])] at h
      cases hp : passes q c with
      | none => rfl
      | some b =>
        have hrest : ∃ d ∈ cs.filter fun c => !skip c, ¬ Readable q d := by
          obtain ⟨d, hd, hnr⟩ := h
          rcases mem_cons.1 hd with rfl | hd
          · rw [passes_eq_none.2 hnr] at hp
            cases hp
          · exact ⟨d, hd, hnr⟩
        rw [hcGetList_none hn hrest, hcGetList_none (Nat.lt_succ_of_lt hn) hrest]
        cases b <;> rfl

theorem walked_cons (m : SkipMask) (skip : Instance → Change → Bool) (i : Instance) (is : List Instance) :
    walked m skip (i :: is) =
      (if m.skipsView i.newView then [] else i.list.filter fun c => !skip i c) ++ walked m skip is :=
  flatMap_cons

theorem chosen_append (q : Option Query) (l l' : List Change) : chosen q (l ++ l') = chosen q l ++ chosen q l' :=
  filter_append ..

theorem hcGetWalk_eq : ∀ {is : List Instance} {n : Nat},
    (∀ c ∈ walked m (fun i c => skipped m i.kind i.newView (unread c.uid)) is, Readable q c) →
    (hcGetWalk m q unread n is).map (fun r => r.1) =
      some ((chosen q (walked m (fun i c => skipped m i.kind i.newView (unread c.uid)) is)).take n)
  | [], n, _ => by
    unfold hcGetWalk walked chosen
    simp
  | i :: is, n, hr => by
    unfold hcGetWalk
    rw [walked_cons] at hr ⊢
    cases hv : m.skipsView i.newView with
    | true =>
      rw [hv] at hr
      rw [if_pos rfl, if_pos rfl, nil_append, Option.map_map, ← hcGetWalk_eq hr]
      rfl
    | false =>
      rw [hv] at hr
      rw [if_neg Bool.false_ne_true, if_neg Bool.false_ne_true,
        hcGetList_eq (forall_mem_append.1 hr).1, Option.bind_some, chosen_append, take_append]
      have hrest := (forall_mem_append.1 hr).2
      generalize hA : chosen q (i.list.filter fun c => !skipped m i.kind i.newView (unread c.uid)) = A
      split
      · -- Nothing more is wanted: the rest of the walk would add nothing.
        rename_i hstop
        simp only [Bool.and_eq_true, decide_eq_true_eq] at hstop
        rw [hstop.1, take_zero, append_nil]
        rfl
      · have hih := hcGetWalk_eq (n := n - A.length) hrest
        obtain ⟨r, hr', hr1⟩ := Option.map_eq_some_iff.1 hih
        rw [hr', ← hr1]
        rfl

theorem hcGetWalk_none : ∀ {is : List Instance} {n : Nat}, (is.flatMap fun i => i.list).length < n →
    (∃ c ∈ walked m (fun i c => skipped m i.kind i.newView (unread c.uid)) is, ¬ Readable q c) →
    hcGetWalk m q unread n is = none
  | [], n, _, h => by
    obtain ⟨c, hc, -⟩ := h
    cases hc
  | i :: is, n, hn, h => by
    rw [flatMap_cons, length_append] at hn
    unfold hcGetWalk
    rw [walked_cons] at h
    cases hv : m.skipsView i.newView with
    | true =>
      rw [hv] at h
      rw [hcGetWalk_none (by omega) h]
      rfl
    | false =>
      rw [hv] at h
      rw [if_neg Bool.false_ne_true]
      by_cases hhere : ∀ c ∈ i.list.filter (fun c => !skipped m i.kind i.newView (unread c.uid)), Readable q c
      · have hlen : (chosen q (i.list.filter fun c => !skipped m i.kind i.newView (unread c.uid))).length ≤
            i.list.length := Nat.le_trans (length_filter_le ..) (length_filter_le ..)
        rw [hcGetList_eq hhere, bind_some]
        rw [if_neg (by simp only [Bool.and_eq_true, decide_eq_true_eq]; omega), hcGetWalk_none (by omega)]
        · rfl
        obtain ⟨c, hc, hnr⟩ := h
        rcases mem_append.1 hc with hc | hc
        · exact absurd (hhere c hc) hnr
        · exact ⟨c, hc, hnr⟩
      · simp only [not_forall] at hhere
        obtain ⟨c, hc, hnr⟩ := hhere
        rw [hcGetList_none (by omega) ⟨c, hc, hnr⟩]
        rfl

theorem hcCheckList_eq (q : Option Query) (skip : Change → Bool) : ∀ l : List Change,
    hcCheckList q skip l = match (l.filter fun c => !skip c).head? with
      | none => some none
      | some c => (checks q c).map some
  | [] => rfl
  | c :: cs => by
    unfold hcCheckList
    cases hs : skip c with
    | true =>
      rw [filter_cons_of_neg (by simp [hs])]
      exact hcCheckList_eq q skip cs
    | false =>
      rw [filter_cons_of_pos (by simp [hs])]
      rfl

theorem hcCheckWalk_eq (m : SkipMask) (q : Option Query) (unread : Nat → Bool) : ∀ is : List Instance,
    hcCheckWalk m q unread is =
      match (walked m (fun i c => skippedCheck m c.kind i.newView (unread c.uid)) is).head? with
      | none => some none
      | some c => (checks q c).map some
  | [] => rfl
  | i :: is => by
    unfold hcCheckWalk
    rw [walked_cons]
    cases hv : m.skipsView i.newView with
    | true => exact hcCheckWalk_eq m q unread is
    | false =>
      rw [hcCheckList_eq]
      cases hl : i.list.filter fun c => !skippedCheck m c.kind i.newView (unread c.uid) with
      | nil => exact hcCheckWalk_eq m q unread is
      | cons c cs =>
        show ((checks q c).map some).bind _ = (checks q c).map some
        cases checks q c <;> rfl

/-! ## Agreement -/

theorem hcAvailCondition_eq (cfg : Config) (s : State) (m : SkipMask) (q : Option Query) :
    hcAvailCondition cfg s m q = match (checkCandidates cfg s m).head? with
      | none => some false
      | some c => checks q c := by
  have hmap : ∀ o : Option Change, (match o with
      | none => some none
      | some c => (checks q c).map some).map (fun r : Option Bool => r == some true) = match o with
      | none => some false
      | some c => checks q c := by
    intro o
    cases o with
    | none => rfl
    | some c =>
      dsimp only
      rcases checks q c with _ | _ | _ <;> rfl
  unfold hcAvailCondition checkCandidates
  split
  · rw [hcCheckWalk_eq]
    exact hmap _
  · rw [hcCheckList_eq]
    exact hmap _

theorem hcGet_eq (hr : ∀ c ∈ readCandidates cfg s m, Readable q c) :
    (hcGet cfg s m q n).map (fun r => r.1) = some ((chosen q (readCandidates cfg s m)).take n) := by
  unfold readCandidates at hr ⊢
  unfold hcGet
  split
  · rename_i h
    rw [if_pos h] at hr
    rw [Option.map_map, ← hcGetWalk_eq hr]
    rfl
  · rename_i h
    rw [if_neg h] at hr
    rw [hcGetList_eq hr]
    rfl

theorem hcGet_none (h : ∃ c ∈ readCandidates cfg s m, ¬ Readable q c) : ∃ n, 1 ≤ n ∧ hcGet cfg s m q n = none := by
  unfold readCandidates at h
  unfold hcGet
  split at h
  · exact ⟨_, Nat.succ_pos _, by rw [if_pos ‹_›, hcGetWalk_none (Nat.lt_succ_self _) h]; rfl⟩
  · exact ⟨_, Nat.succ_pos _, by rw [if_neg ‹_›, hcGetList_none (Nat.lt_succ_self _) h]; rfl⟩

/-- The sample that decides on the condition is judged as a read judges it: it is let through by its own state and by
that of its instance (or of the cache), and if there is a query it has data. -/
def JudgedAlike (cfg : Config) (s : State) (m : SkipMask) (q : Option Query) : Prop :=
  ∀ c ∈ (checkCandidates cfg s m).head?, c ∈ readCandidates cfg s m ∧ (q.isSome → c.length ≠ 0)

/-- No sample that a read looks at has data but no buffer, and none behind the one that decides on the condition matches
if that one does not. -/
structure Decided (cfg : Config) (s : State) (m : SkipMask) (q : Option Query) : Prop where
  read : ∀ c ∈ readCandidates cfg s m, Readable q c
  later : (∀ c ∈ (checkCandidates cfg s m).head?, passes q c = some false) →
    ∀ c ∈ readCandidates cfg s m, passes q c = some false

def Triggers (cfg : Config) (s : State) (m : SkipMask) (q : Option Query) : Prop :=
  ∀ n, 1 ≤ n → ∃ b l t, hcAvailCondition cfg s m q = some b ∧ hcGet cfg s m q n = some (l, t) ∧ (b = true ↔ l ≠ [])

theorem chosen_take_ne_nil (hn : 1 ≤ n) : (chosen q l).take n ≠ [] ↔ ∃ c ∈ l, passes q c = some true := by
  rw [Ne, take_eq_nil_iff, not_or]
  unfold chosen
  rw [filter_eq_nil_iff]
  simp only [decide_eq_true_eq, not_forall, not_not]
  constructor
  · rintro ⟨-, c, hc, hp⟩
    exact ⟨c, hc, hp⟩
  · rintro ⟨c, hc, hp⟩
    exact ⟨by omega, c, hc, hp⟩

theorem hcAvailCondition_true (h : hcAvailCondition cfg s m q = some b) :
    b = true ↔ ∃ c ∈ (checkCandidates cfg s m).head?, checks q c = some true := by
  rw [hcAvailCondition_eq] at h
  cases hc : (checkCandidates cfg s m).head? with
  | none =>
    rw [hc] at h
    cases h
    simp
  | some c =>
    rw [hc] at h
    simp [h]

theorem checks_eq_passes (h : q.isSome → c.length ≠ 0) : checks q c = passes q c := by
  cases q with
  | none => rfl
  | some f => rw [checks, passes, if_neg (h rfl)]

theorem passes_of_readable (h : Readable q c) : passes q c = some true ∨ passes q c = some false := by
  rcases hp : passes q c with _ | _ | _
  · exact absurd h (passes_eq_none.1 hp)
  · exact .inr rfl
  · exact .inl rfl

theorem hcAvailCondition_some (ha : JudgedAlike cfg s m q) (hread : ∀ c ∈ readCandidates cfg s m, Readable q c) :
    ∃ b, hcAvailCondition cfg s m q = some b := by
  rw [hcAvailCondition_eq]
  cases hc : (checkCandidates cfg s m).head? with
  | none => exact ⟨false, rfl⟩
  | some c =>
    obtain ⟨hmem, hlen⟩ := ha c hc
    dsimp only
    rw [checks_eq_passes hlen]
    rcases passes_of_readable (hread c hmem) with h | h <;> exact ⟨_, h⟩

def noMask : SkipMask where
  read := false
  notRead := false
  newView := false
  oldView := false
  alive := false
  disposed := false
  noWriters := false

def twoTimes : List Event := [.register 1 false, .add 1 (sampleAt 5) calmEnv, .add 1 (sampleAt 7) calmEnv]

end Qeo.Cache
