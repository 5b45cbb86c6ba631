import QeoCore.Flow
/-!
# JumpCode — boolean expressions as code that jumps

An atom's block leaves a condition pending that a branch can test.  `Expr.code` is the code of an expression that starts
at `a` when the places where it goes if true (`tt`) and if false (`ff`) are known.  A generator that does not know them
yet leaves branches open, and patches them later (`Patches`).  A `Driver` runs the code past the atoms of `trail`.
-/
namespace JumpCode

open List Option Flow

inductive Expr (α : Type*)
  | atom (p : α)
  | not (e : Expr α)
  | and (x y : Expr α)
  | or (x y : Expr α)

open JumpCode.Expr

variable {α κ β : Type*}

def Expr.eval (truth : α → Bool) : Expr α → Bool
  | atom p => truth p
  | not e => !e.eval truth
  | and x y => x.eval truth && y.eval truth
  | or x y => x.eval truth || y.eval truth

def Expr.atoms : Expr α → List α
  | atom p => [p]
  | not e => e.atoms
  | and x y => x.atoms ++ y.atoms
  | or x y => x.atoms ++ y.atoms

def Expr.trail (truth : α → Bool) : Expr α → List α
  | atom p => [p]
  | not e => e.trail truth
  | and x y => x.trail truth ++ if x.eval truth then y.trail truth else []
  | or x y => x.trail truth ++ if x.eval truth then [] else y.trail truth

theorem Expr.trail_subset (truth : α → Bool) : ∀ e : Expr α, ∀ p ∈ e.trail truth, p ∈ e.atoms
  | atom _, _, h => h
  | not e, p, h => e.trail_subset truth p h
  | and x y, p, h | or x y, p, h => by
    rcases mem_append.1 h with h | h
    · exact mem_append_left _ (x.trail_subset truth p h)
    · refine mem_append_right _ (y.trail_subset truth p ?_)
      split at h <;> trivial

/-- How atoms and branches are encoded: the block of an atom leaves pending the condition on which the atom is false,
and a branch can have its target patched in place. -/
structure Scheme (α κ β : Type*) where
  block : α → List β
  cond : α → κ
  neg : κ → κ
  width : Nat
  branch : κ → Nat → List β
  patch : List β → Nat → Nat → List β
  branch_length : ∀ c t, (branch c t).length = width
  patch_branch : ∀ pre c u post t, patch (pre ++ (branch c u ++ post)) pre.length t = pre ++ (branch c t ++ post)

variable (S : Scheme α κ β)

def Expr.cond : Expr α → κ
  | atom p => S.cond p
  | not e => S.neg e.cond
  | and _ y => y.cond
  | or _ y => y.cond

def Expr.size : Expr α → Nat
  | atom p => (S.block p).length
  | not e => e.size
  | and x y => x.size + S.width + y.size
  | or x y => x.size + S.width + y.size

def Expr.code : Expr α → (a tt ff : Nat) → List β
  | atom p, _, _, _ => S.block p
  | not e, a, tt, ff => e.code a ff tt
  | and x y, a, tt, ff =>
    x.code a (a + x.size S + S.width) ff ++ (S.branch (x.cond S) ff ++ y.code (a + x.size S + S.width) tt ff)
  | or x y, a, tt, ff =>
    x.code a tt (a + x.size S + S.width) ++ (S.branch (S.neg (x.cond S)) tt ++ y.code (a + x.size S + S.width) tt ff)

def Expr.holes : Expr α → Nat → List Nat × List Nat
  | atom _, _ => ([], [])
  | not e, a => ((e.holes a).2, (e.holes a).1)
  | and x y, a =>
    ((y.holes (a + x.size S + S.width)).1, (x.holes a).2 ++ [a + x.size S] ++ (y.holes (a + x.size S + S.width)).2)
  | or x y, a =>
    ((x.holes a).1 ++ [a + x.size S] ++ (y.holes (a + x.size S + S.width)).1, (y.holes (a + x.size S + S.width)).2)

def Scheme.backpatch (code : List β) (chain : List Nat) (t : Nat) : List β :=
  chain.foldl (fun code o => S.patch code o t) code

@[simp] theorem Expr.code_length : ∀ (e : Expr α) (a tt ff : Nat), (e.code S a tt ff).length = e.size S
  | atom p, _, _, _ => rfl
  | not e, a, tt, ff => e.code_length a ff tt
  | and x y, a, tt, ff | or x y, a, tt, ff => by
    simp only [code, size, length_append, x.code_length, y.code_length, S.branch_length]; omega

theorem Scheme.backpatch_append (code : List β) (C D : List Nat) (t : Nat) :
    S.backpatch code (C ++ D) t = S.backpatch (S.backpatch code C t) D t := foldl_append

theorem Scheme.backpatch_branch (pre post : List β) (c : κ) (u t : Nat) :
    S.backpatch (pre ++ (S.branch c u ++ post)) [pre.length] t = pre ++ (S.branch c t ++ post) :=
  S.patch_branch pre c u post t

/-- Patching the holes fills in the targets, whatever stood there, before and behind. -/
def Expr.Patches (t : Nat) (e : Expr α) : Prop := ∀ (pre post : List β) (a u v : Nat), pre.length = a →
  S.backpatch (pre ++ (e.code S a u v ++ post)) (e.holes S a).1 t = pre ++ (e.code S a t v ++ post) ∧
  S.backpatch (pre ++ (e.code S a u v ++ post)) (e.holes S a).2 t = pre ++ (e.code S a u t ++ post)

variable {S} {x y : Expr α}

theorem Expr.Patches.not (h : x.Patches S t) : x.not.Patches S t := fun pre post a u v ha =>
    And.symm (h pre post a v u ha)

theorem Expr.Patches.and (hx : x.Patches S t) (hy : y.Patches S t) : (x.and y).Patches S t := by
  intro pre post a u v ha
  let b := a + x.size S + S.width
  -- `y` starts behind the branch on `x`
  have hlen : ∀ w, (pre ++ (x.code S a b w ++ S.branch (x.cond S) w)).length = b := by
    simp only [length_append, code_length, S.branch_length, ha, b]; omega
  have hx := (hx pre (S.branch (x.cond S) v ++ (y.code S b u v ++ post)) a b v ha).2
  have hb := S.backpatch_branch (pre ++ x.code S a b t) (y.code S b u v ++ post) (x.cond S) v t
  have hy := fun w => hy (pre ++ (x.code S a b w ++ S.branch (x.cond S) w)) post b u v (hlen w)
  simp only [append_assoc, length_append, code_length, ha] at hy hb
  simp only [code, holes, append_assoc, S.backpatch_append]
  exact ⟨(hy v).1, by rw [hx, hb]; exact (hy t).2⟩

theorem Expr.patch_holes (S : Scheme α κ β) (t : Nat) : ∀ e : Expr α, e.Patches S t
  | atom _ => fun _ _ _ _ _ _ => ⟨rfl, rfl⟩
  | not e => (e.patch_holes S t).not
  | and x y => (x.patch_holes S t).and (y.patch_holes S t)
  -- the code of the conjunction that De Morgan's law gives is the same
  | or x y => ((x.patch_holes S t).not.and (y.patch_holes S t).not).not

/-! ## Running the code -/

def At (P : List β) (a : Nat) (bs : List β) : Prop := ∃ pre post, P = pre ++ (bs ++ post) ∧ pre.length = a

theorem At.left {bs cs : List β} (h : At P a (bs ++ cs)) : At P a bs := by
  obtain ⟨pre, post, rfl, ha⟩ := h
  exact ⟨pre, cs ++ post, by rw [append_assoc], ha⟩

theorem At.right {bs cs : List β} (h : At P a (bs ++ cs)) : At P (a + bs.length) cs := by
  obtain ⟨pre, post, rfl, ha⟩ := h
  exact ⟨pre ++ bs, post, by simp only [append_assoc], by rw [length_append, ha]⟩

theorem At.drop {bs : List β} (h : At P a bs) : ∃ post, P.drop a = bs ++ post := by
  obtain ⟨pre, post, rfl, rfl⟩ := h
  exact ⟨post, drop_left⟩

theorem At.head {bs : List β} (h : At P a (b :: bs)) : P[a]? = some b := by
  obtain ⟨post, h⟩ := h.drop
  rw [← head?_drop, h]
  rfl

theorem At.tail {bs : List β} (h : At P a (b :: bs)) : At P (a + 1) bs := At.right (show At P a ([b] ++ bs) from h)

variable {σ ω ν : Type*}

/-- From `s` the machine gets to a state of `Q` with the reading `m`, or it ends badly where there is no reading. -/
def Gets (step : σ → σ ⊕ ω) (good : ω → Prop) (s : σ) (Q : ν → σ → Prop) : Option ν → Prop
  | none => ∃ o, ¬ good o ∧ Ends step s o
  | some m => ∃ t, Leads step s t ∧ Q m t

theorem Gets.of_leads {step : σ → σ ⊕ ω} (hst : Leads step s t) :
    ∀ {x : Option ν}, Gets step good t Q x → Gets step good s Q x
  | none, ⟨o, ho, h⟩ => ⟨o, ho, hst.ends_iff.2 h⟩
  | some _, ⟨u, htu, hu⟩ => ⟨u, hst.trans htu, hu⟩

theorem Gets.bind {step : σ → σ ⊕ ω} {Q Q' : ν → σ → Prop} :
    ∀ {x : Option ν}, Gets step good s Q x → (∀ m t, Q m t → Gets step good t Q' (f m)) →
      Gets step good s Q' (x.bind f)
  | none, h, _ => h
  | some m, ⟨t, hst, ht⟩, hf => (hf m t ht).of_leads hst

theorem Gets.imp {step : σ → σ ⊕ ω} :
    ∀ {x : Option ν}, Gets step good s Q x → (∀ m t, Q m t → Q' m t) → Gets step good s Q' x
  | none, h, _ => h
  | some m, ⟨t, hst, ht⟩, hq => ⟨t, hst, hq m t ht⟩

/-- A machine that runs the blocks and branches in `P`.  It carries a meter `ν` that `visit` and `tick` advance over a
block and over a branch, or stop. -/
structure Driver (S : Scheme α κ β) (step : σ → σ ⊕ ω) (P : List β) (ν : Type*) where
  /-- Targets below it fit in a branch. -/
  limit : Nat
  /-- The atoms whose blocks it runs. -/
  admits : α → Prop
  truth : α → Bool
  visit : α → ν → Option ν
  tick : ν → Option ν
  good : ω → Prop
  /-- At an address, with nothing pending. -/
  ready : Nat → ν → σ → Prop
  /-- At an address, with a condition pending on which the branch is taken exactly where the value is false. -/
  pending : Nat → ν → κ → Bool → σ → Prop
  on_block : ∀ {p a m s}, admits p → At P a (S.block p) → ready a m s →
    Gets step good s (fun m' => pending (a + (S.block p).length) m' (S.cond p) (truth p)) (visit p m)
  on_branch : ∀ {a m c t v s}, t < limit → At P a (S.branch c t) → pending a m c v s →
    Gets step good s (ready (if v then a + S.width else t)) (tick m)
  pending_neg : ∀ {a m c v s}, pending a m c v s → pending a m (S.neg c) (!v) s

def Expr.falls (truth : α → Bool) : Expr α → Bool
  | atom _ => true
  | not e => e.falls truth
  | and x y => x.eval truth && y.falls truth
  | or x y => !x.eval truth && y.falls truth

def tour (visit : α → ν → Option ν) (tick : ν → Option ν) : List α → ν → Option ν
  | [], m => some m
  | p :: ps, m => ((visit p m).bind tick).bind (tour visit tick ps)

theorem tour_append (visit : α → ν → Option ν) (tick : ν → Option ν) :
    ∀ (ps qs : List α) (m : ν), tour visit tick (ps ++ qs) m = (tour visit tick ps m).bind (tour visit tick qs)
  | [], _, _ => rfl
  | p :: ps, qs, m => by
    simp only [cons_append, tour, bind_assoc]
    congr 1; funext m'; congr 1; funext m''
    exact tour_append visit tick ps qs m''

theorem tour_guarded [DecidablePred ok] :
    ∀ (ps : List α) (m : ν), (∀ p ∈ ps, ∀ m, visit p m = if ok p then visit' p m else none) →
      tour visit tick ps m = if ∀ p ∈ ps, ok p then tour visit' tick ps m else none
  | [], m, _ => by simp [tour]
  | p :: ps, m, h => by
    have ih : tour visit tick ps = fun m => if ∀ q ∈ ps, ok q then tour visit' tick ps m else none :=
      funext fun m => tour_guarded ps m (forall_mem_cons.1 h).2
    simp only [tour, ih, h p (mem_cons_self ..), forall_mem_cons]
    by_cases hp : ok p
    · by_cases hps : ∀ q ∈ ps, ok q
      · simp only [if_pos hp, if_pos hps, if_pos (And.intro hp hps)]
      · simp only [if_pos hp, if_neg hps, if_neg (fun h : ok p ∧ _ => hps h.2)]
        cases (visit' p m).bind tick <;> rfl
    · simp only [if_neg hp, if_neg (fun h : ok p ∧ _ => hp h.1)]
      rfl

def Expr.pass (truth : α → Bool) (visit : α → ν → Option ν) (tick : ν → Option ν) : Expr α → ν → Option ν
  | atom p, m => visit p m
  | not e, m => e.pass truth visit tick m
  | and x y, m =>
    (tour visit tick (x.trail truth) m).bind fun m => if x.eval truth then y.pass truth visit tick m else some m
  | or x y, m =>
    (tour visit tick (x.trail truth) m).bind fun m => if x.eval truth then some m else y.pass truth visit tick m

theorem Expr.tour_trail (truth : α → Bool) (visit : α → ν → Option ν) (tick : ν → Option ν) :
    ∀ (e : Expr α) (m : ν), tour visit tick (e.trail truth) m
      = (e.pass truth visit tick m).bind fun m => if e.falls truth then tick m else some m
  | atom p, m => by simp [trail, tour, pass, falls, bind_fun_some]
  | not e, m => e.tour_trail truth visit tick m
  | and x y, m | or x y, m => by
    simp only [trail, pass, falls, tour_append, bind_assoc]
    congr 1; funext m'
    by_cases hx : x.eval truth = true <;> simp [hx, tour, y.tour_trail truth visit tick m']

namespace Driver

variable {step : σ → σ ⊕ ω} {P : List β} (D : Driver S step P ν) {tt ff : Nat} {s : σ} {m : ν}

def Left (e : Expr α) (b tt ff : Nat) (m : ν) (t : σ) : Prop :=
  if e.falls D.truth then D.pending b m (e.cond S) (e.eval D.truth) t
  else D.ready (if e.eval D.truth then tt else ff) m t

theorem close_true (hff : ff < D.limit) (hbr : At P b (S.branch (e.cond S) ff))
    (h : Gets step D.good s (D.Left e b (b + S.width) ff) (e.pass D.truth D.visit D.tick m)) :
    Gets step D.good s (D.ready (if e.eval D.truth then b + S.width else ff))
      (tour D.visit D.tick (e.trail D.truth) m) := by
  rw [e.tour_trail]
  apply h.bind
  intro m' t ht
  by_cases hf : e.falls D.truth = true
  · rw [Left, if_pos hf] at ht
    rw [if_pos hf]
    exact D.on_branch hff hbr ht
  · rw [Left, if_neg hf] at ht
    rw [if_neg hf]
    exact ⟨t, .refl t, ht⟩

theorem Left.not (h : D.Left e b tt ff m t) : D.Left e.not b ff tt m t := by
  by_cases hf : e.falls D.truth = true
  · rw [Left, if_pos hf] at h
    rw [Left, if_pos (show e.not.falls D.truth = true from hf)]
    exact D.pending_neg h
  · rw [Left, if_neg hf] at h
    rw [Left, if_neg (show ¬ e.not.falls D.truth = true from hf)]
    cases hv : e.eval D.truth <;> simpa [eval, hv] using h

theorem close_false (htt : tt < D.limit) (hbr : At P b (S.branch (S.neg (e.cond S)) tt))
    (h : Gets step D.good s (D.Left e b tt (b + S.width)) (e.pass D.truth D.visit D.tick m)) :
    Gets step D.good s (D.ready (if e.eval D.truth then tt else b + S.width))
      (tour D.visit D.tick (e.trail D.truth) m) := by
  have := D.close_true (e := e.not) htt hbr (h.imp fun _ _ => Left.not D)
  cases hv : e.eval D.truth <;> simpa [eval, trail, hv] using this

/-- **The code of an expression is left at the place its value names**, or at its end with its value pending. -/
theorem leaves : ∀ (e : Expr α) {a tt ff : Nat} {s : σ} {m : ν}, (∀ p ∈ e.atoms, D.admits p) →
    a + e.size S < D.limit → tt < D.limit → ff < D.limit → At P a (e.code S a tt ff) → D.ready a m s →
    Gets step D.good s (D.Left e (a + e.size S) tt ff) (e.pass D.truth D.visit D.tick m)
  | .atom p, a, tt, ff, s, m, hp, _, _, _, hat, hs => D.on_block (hp p (mem_singleton.2 rfl)) hat hs
  | .not e, a, tt, ff, s, m, hp, ha, htt, hff, hat, hs => (leaves e hp ha hff htt hat hs).imp fun _ _ => Left.not D
  | .and x y, a, tt, ff, s, m, hp, ha, htt, hff, hat, hs => by
    simp only [size] at ha
    obtain ⟨hpx, hpy⟩ := forall_mem_append.1 hp
    have hbr := hat.right.left
    have hy := hat.right.right
    rw [code_length] at hbr hy
    rw [S.branch_length] at hy
    apply (D.close_true hff hbr (leaves x hpx (by omega) (by omega) hff hat.left hs)).bind
    intro m' t ht
    by_cases hx : x.eval D.truth = true
    · -- `x` is true: the machine is at the start of `y`
      rw [if_pos hx] at ht
      rw [if_pos hx]
      apply (leaves y hpy (by omega) htt hff hy ht).imp
      simp [Left, falls, eval, Expr.cond, size, hx, Nat.add_assoc]
    · rw [if_neg hx]
      exact ⟨t, .refl t, by simpa [Left, falls, eval, hx] using ht⟩
  | .or x y, a, tt, ff, s, m, hp, ha, htt, hff, hat, hs => by
    simp only [size] at ha
    obtain ⟨hpx, hpy⟩ := forall_mem_append.1 hp
    have hbr := hat.right.left
    have hy := hat.right.right
    rw [code_length] at hbr hy
    rw [S.branch_length] at hy
    apply (D.close_false htt hbr (leaves x hpx (by omega) htt (by omega) hat.left hs)).bind
    intro m' t ht
    by_cases hx : x.eval D.truth = true
    · rw [if_pos hx]
      exact ⟨t, .refl t, by simpa [Left, falls, eval, hx] using ht⟩
    -- `x` is false: the machine is at the start of `y`
    rw [if_neg hx] at ht
    rw [if_neg hx]
    apply (leaves y hpy (by omega) htt hff hy ht).imp
    simp [Left, falls, eval, Expr.cond, size, hx, Nat.add_assoc]

/-- **Behind the branch that closes it, the code is left at the place the value names**, past the atoms of the trail. -/
theorem closes {e : Expr α} (hp : ∀ p ∈ e.atoms, D.admits p) (ha : a + e.size S + S.width < D.limit)
    (hff : ff < D.limit) (hcode : At P a (e.code S a (a + e.size S + S.width) ff))
    (hbr : At P (a + e.size S) (S.branch (e.cond S) ff)) (hs : D.ready a m s) :
    Gets step D.good s (D.ready (if e.eval D.truth then a + e.size S + S.width else ff))
      (tour D.visit D.tick (e.trail D.truth) m) :=
  D.close_true hff hbr (D.leaves e hp (by omega) ha hff hcode hs)

end Driver

end JumpCode
