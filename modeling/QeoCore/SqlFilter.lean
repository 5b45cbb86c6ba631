import QeoCore.SqlRun
/-!
# SqlFilter — what an accepted filter does

The interpreter drives the jumping code of a condition (`filterDriver`) past the predicates of its trail, and returns
the value of the condition if each of them runs (`interprets_filter`).
-/
namespace Qeo.Sql

open List Option Nat Flow JumpCode

variable {E : Type} {env : Env E} {d d' : Regs E} {p : Pred} {is : List Instr} {prog : Program}

def Pred.instrs (ts : TypeSupport) (p : Pred) : List Instr :=
  match Pred.assemble ts p with
  | .ok is => is
  | .error _ => []

open Sql.Pred

def Pred.verdict (v : Values E) (d : Regs E) : Pred → Option Bool
  | .comp _ .eq _ => some (d.r = 0)
  | .comp _ .ne _ => some (d.r ≠ 0)
  | .comp _ .gt _ => some (0 < d.r)
  | .comp _ .ge _ => some (0 ≤ d.r)
  | .comp _ .lt _ => some (d.r < 0)
  | .comp _ .le _ => some (d.r ≤ 0)
  | .comp _ .like _ => d.stack.head?.map v.isTrue
  | .between _ negate _ _ => d.stack.head?.map fun x => v.isTrue x != negate

def clean (env : Env E) (r : Int) : Regs E := ⟨[], r, false, env.ts.cdr, 0, []⟩

def Leaves (env : Env E) (truth : Pred → Bool) (p : Pred) : Prop :=
  ∀ d, execAll env (p.instrs env.ts) (clean env 0) = some d → p.verdict env.toValues d = some (truth p)

theorem instrs_of_assemble (h : assemble ts p = .ok is) : p.instrs ts = is := by
  rw [instrs, h]

theorem block_eq (ts : TypeSupport) (p : Pred) : block ts p = encode (p.instrs ts) := by
  unfold block instrs
  cases assemble ts p <;> rfl

/-! ## A predicate on its own -/

theorem reset_withR (d : Regs E) (r : Int) : Regs.reset env { d with r := r } = { d.reset env with r := r } := by
  unfold Regs.reset
  split <;> rfl

theorem load_withR (h : d.load env k idx = .ok d') (r : Int) :
    Regs.load env { d with r := r } k idx = .ok { d' with r := r } := by
  obtain ⟨stack, r0, second, ctp, cnest, offset⟩ := d
  unfold Regs.load at h ⊢
  split at h
  case h_2 => cases h
  case h_3 => cases h
  case h_1 hctp =>
  cases hctp
  simp only [Env.sample] at h ⊢
  split at h
  case h_2 => cases h
  case h_1 hsm =>
  split_ifs at h with hidx
  cases h
  simp only [hsm, if_pos hidx]
  exact congrArg Except.ok (reset_withR (Regs.push ⟨stack, r0, second, _, cnest, offset⟩ _) r)

theorem container_withR (h : d.container env idx = .ok d') (r : Int) :
    Regs.container env { d with r := r } idx = .ok { d' with r := r } := by
  obtain ⟨stack, r0, second, ctp, cnest, offset⟩ := d
  unfold Regs.container at h ⊢
  split at h
  case h_2 => cases h
  case h_3 => cases h
  case h_1 hctp =>
  cases hctp
  simp only [Env.sample] at h ⊢
  split at h
  case h_2 => cases h
  case h_3 => cases h
  case h_1 hsm hmem =>
  cases h
  simp only [hsm, hmem]

theorem exec_withR {i : Instr} (h : i.exec env d = some d') (r : Int) :
    ∃ r', i.exec env { d with r := r } = some { d' with r := r' } := by
  unfold Instr.exec at h ⊢
  split_ifs at h ⊢ with hs
  cases i with
  | lci b => cases h; exact ⟨r, rfl⟩
  | lc k bytes => cases h; exact ⟨r, rfl⟩
  | str text => cases h; exact ⟨r, rfl⟩
  | nop arg => cases h
  | lp k idx =>
    obtain ⟨text, ht, rfl⟩ := map_eq_some_iff.1 h
    exact ⟨r, by simp only [Instr.perform, ht]; rfl⟩
  | ld k idx => exact ⟨r, congrArg Except.toOption (load_withR (toOption_eq_some h) r)⟩
  | cref idx => exact ⟨r, congrArg Except.toOption (container_withR (toOption_eq_some h) r)⟩
  | op o =>
    simp only [Instr.perform, Regs.apply] at h ⊢
    split at h
    case h_7 => cases h
    case h_5 | h_6 => cases h; exact ⟨r, rfl⟩
    all_goals
      split at h
      case h_2 => cases h
      cases h
      exact ⟨_, rfl⟩

theorem execAll_withR : ∀ {is : List Instr} {d d' : Regs E}, execAll env is d = some d' → ∀ r,
    ∃ r', execAll env is { d with r := r } = some { d' with r := r' }
  | [], d, d', h, r => by
    cases h
    exact ⟨r, rfl⟩
  | i :: is, d, d', h, r => by
    obtain ⟨d1, h1, h2⟩ := bind_eq_some_iff.1 h
    obtain ⟨r1, hr1⟩ := exec_withR h1 r
    obtain ⟨r2, hr2⟩ := execAll_withR h2 r1
    exact ⟨r2, by rw [execAll, hr1, bind_some, hr2]⟩

theorem clean_top (env : Env E) (r : Int) : (clean env r).Top env := ⟨rfl, rfl, rfl, rfl⟩

theorem Shape.verdict_clean (hsh : Shape env p is) (r' : Int) (h : execAll env is (clean env r) = some d) :
    ∃ d', execAll env is (clean env r') = some d' ∧ p.verdict env.toValues d' = p.verdict env.toValues d := by
  obtain ⟨r1, h1⟩ := execAll_withR h r'
  have hclean : ({ clean env r with r := r' } : Regs E) = clean env r' := rfl
  rw [hclean] at h1
  cases hsh with
  | like hl => exact ⟨_, h1, rfl⟩
  | btw k hl => exact ⟨_, h1, rfl⟩
  | cmp k hrel hl =>
    refine ⟨_, h1, ?_⟩
    rw [execAll_append] at h h1
    obtain ⟨d2, h2, h3⟩ := bind_eq_some_iff.1 h
    obtain ⟨r3, h4⟩ := execAll_withR h2 r'
    rw [hclean] at h4
    -- the comparison overwrites the result on both sides
    have hcmp : execAll env [.op (.cmp k)] { d2 with r := r3 } = execAll env [.op (.cmp k)] d2 := by
      simp only [execAll_singleton, Instr.exec, Instr.perform, Regs.apply]
    rw [h4, bind_some, hcmp, h3] at h1
    rw [← some.inj h1]

theorem branch_complement (v : Values E) : ∀ (c : Cond) {b : Bool}, d.branch v c = some (b, d') →
    d.branch v c.complement = some (!b, d')
  | .eq, _, h => by cases h; exact congrArg (fun b => some (b, d)) (decide_not ..)
  | .ne, _, h => by cases h; simp [Cond.complement, Regs.branch]
  | .gt, _, h | .lt, _, h => by cases h; simp only [Cond.complement, Regs.branch, ← decide_not, Int.not_lt]
  | .le, _, h | .ge, _, h => by cases h; simp only [Cond.complement, Regs.branch, ← decide_not, Int.not_le]
  | .t, _, h => by
    simp only [Cond.complement, Regs.branch] at h ⊢
    split at h <;> cases h
    rfl
  | .f, _, h => by
    simp only [Cond.complement, Regs.branch] at h ⊢
    split at h <;> cases h
    rw [Bool.not_not]

theorem Shape.ends_with (hl : Loads env k js) (h : execAll env (js ++ [.op o]) (clean env r) = some d) :
    ∃ xs, xs.length = k ∧ Regs.apply env.toValues ⟨xs, r, false, env.ts.cdr, 0, []⟩ o = some d := by
  rw [execAll_append] at h
  obtain ⟨d1, h1, h2⟩ := bind_eq_some_iff.1 h
  obtain ⟨xs, hx, rfl⟩ := hl.pushes (clean_top env r) h1
  rw [execAll_singleton] at h2
  refine ⟨xs, hx, ?_⟩
  have h3 := exec_eq_some h2
  simp only [clean, append_nil] at h3
  exact h3

theorem Shape.branches (hsh : Shape env p is) (h : execAll env is (clean env r) = some d) :
    d.stack.length < maxStack ∧ ∃ b r', p.verdict env.toValues d = some b ∧
      d.branch env.toValues p.condition = some (!b, clean env r') := by
  cases hsh with
  | cmp k hrel hl =>
    rename_i rel _
    obtain ⟨xs, hx, h⟩ := Shape.ends_with hl h
    obtain ⟨y, x, rfl⟩ := length_eq_two.1 hx
    cases h
    refine ⟨zero_lt_succ _, ?_⟩
    cases rel with
    | like => exact absurd rfl hrel
    | eq => exact ⟨_, env.cmp k x y, rfl, branch_complement _ .eq rfl⟩
    | ne => exact ⟨_, env.cmp k x y, rfl, branch_complement _ .ne rfl⟩
    | gt => exact ⟨_, env.cmp k x y, rfl, branch_complement _ .gt rfl⟩
    | ge => exact ⟨_, env.cmp k x y, rfl, branch_complement _ .ge rfl⟩
    | lt => exact ⟨_, env.cmp k x y, rfl, branch_complement _ .lt rfl⟩
    | le => exact ⟨_, env.cmp k x y, rfl, branch_complement _ .le rfl⟩
  | like hl =>
    obtain ⟨xs, hx, h⟩ := Shape.ends_with hl h
    obtain ⟨y, x, rfl⟩ := length_eq_two.1 hx
    cases h
    exact ⟨one_lt_succ_succ _, _, r, rfl, rfl⟩
  | btw k hl =>
    rename_i negate _
    obtain ⟨xs, hx, h⟩ := Shape.ends_with hl h
    obtain ⟨b, a, x, rfl⟩ := length_eq_three.1 hx
    cases h
    refine ⟨one_lt_succ_succ _, _, r, rfl, ?_⟩
    cases negate <;> simp [condition, Regs.branch, clean]

theorem Shape.wf (hsh : Shape env p is) : ∀ i ∈ is, i.WF := by
  have hlast : ∀ {k js o}, Op.plain o → Loads env k js → ∀ i ∈ js ++ [Instr.op o], i.WF := by
    intro k js o ho hl i hi
    rcases mem_append.1 hi with hi | hi
    · exact hl.wf i hi
    · cases mem_singleton.1 hi
      exact ho
  cases hsh with
  | cmp k _ hl => exact hlast trivial hl
  | like hl => exact hlast trivial hl
  | btw k hl => exact hlast trivial hl

/-! ## The interpreter as a driver -/

def visit (env : Env E) (p : Pred) (n : Nat) : Option Nat :=
  (execAll env (p.instrs env.ts) (clean env 0)).bind fun _ => countAll (p.instrs env.ts) n

def tick (n : Nat) : Option Nat := if n < maxInsts then some (n + 1) else none

structure Admits (env : Env E) (truth : Pred → Bool) (p : Pred) : Prop where
  assembles : ∃ is, assemble env.ts p = .ok is
  leaves : Leaves env truth p

variable {truth : Pred → Bool}

theorem Admits.shape (h : Admits env truth p) : Shape env p (p.instrs env.ts) := by
  obtain ⟨is, his⟩ := h.assembles
  rw [instrs_of_assemble his]
  exact assemble_shape his

theorem Admits.visit_eq (h : Admits env truth p) (r : Int) (n : Nat) :
    ((execAll env (p.instrs env.ts) (clean env r)).bind fun _ => countAll (p.instrs env.ts) n) = visit env p n := by
  unfold visit
  cases hr : execAll env (p.instrs env.ts) (clean env r) with
  | some d =>
    obtain ⟨d0, h0, -⟩ := h.shape.verdict_clean 0 hr
    rw [h0]; rfl
  | none =>
    cases h0 : execAll env (p.instrs env.ts) (clean env 0) with
    | none => rfl
    | some d0 =>
      obtain ⟨d, hd, -⟩ := h.shape.verdict_clean r h0
      rw [hr] at hd
      cases hd

def Pending (env : Env E) (a n : Nat) (c : Cond) (v : Bool) (s : Machine E) : Prop :=
  ∃ d r, s = ⟨a, n, d⟩ ∧ d.stack.length < maxStack ∧ d.branch env.toValues c = some (!v, clean env r)

theorem on_block (hp : Admits env truth p) (hat : At code a (block env.ts p)) (r : Int) :
    Gets (step env code) good ⟨a, n, clean env r⟩
      (fun n' => Pending env (a + (block env.ts p).length) n' p.condition (truth p)) (visit env p n) := by
  rw [block_eq] at hat ⊢
  have hrun : Gets (step env code) good _ _ _ := run_block (p.instrs env.ts) hp.shape.wf a n (clean env r) hat
  rw [hp.visit_eq] at hrun
  apply hrun.imp
  rintro n' t ⟨d, hd, rfl⟩
  obtain ⟨hs, b, r', hb, hbr⟩ := hp.shape.branches hd
  obtain ⟨d0, h0, hv⟩ := hp.shape.verdict_clean 0 hd
  have htruth : b = truth p := some.inj (hb.symm.trans (hv.symm.trans (hp.leaves d0 h0)))
  exact ⟨d, r', rfl, hs, by rw [hbr, htruth]⟩

theorem on_branch (ht : t < 65536) (hat : At code a ((Op.br c).code :: wordBytes t)) (hs : Pending env a n c v s) :
    Gets (step env code) good s (fun n' s' => ∃ r, s' = ⟨if v then a + 3 else t, n', clean env r⟩) (tick n) := by
  obtain ⟨d, r, rfl, hst, hbr⟩ := hs
  by_cases hn : n < maxInsts
  · rw [tick, if_pos hn]
    refine ⟨⟨if v then a + 3 else t, n + 1, clean env r⟩, .single ?_, r, rfl⟩
    rw [step_op hn hst hat]
    simp only [execute, hbr, word_of_at hat.tail, Nat.mod_eq_of_lt ht]
    cases v <;> rfl
  · rw [tick, if_neg hn]
    refine ⟨.error .infloop, id, .of_step ?_⟩
    simp only [step, if_pos (Nat.not_lt.1 hn)]

def filterDriver (env : Env E) (truth : Pred → Bool) (code : List Nat) : Driver (scheme env.ts)
    (step env code) code Nat where
  limit := 65536
  admits := Admits env truth
  truth := truth
  visit := visit env
  tick := tick
  good := good
  ready a n s := ∃ r, s = ⟨a, n, clean env r⟩
  pending := Pending env
  on_block := by
    rintro p a n s hp hat ⟨r, rfl⟩
    exact on_block hp hat r
  on_branch ht hat hs := on_branch ht hat hs
  pending_neg := by
    rintro a n c v s ⟨d, r, rfl, hst, hbr⟩
    exact ⟨d, r, rfl, hst, branch_complement _ c hbr⟩

theorem step_return {o : Op} (ho : o = .rett ∧ v = 1 ∨ o = .retf ∧ v = 0)
    (hat : code[pc]? = some o.code) : step env code ⟨pc, n, clean env r⟩ =
      .inr (if n < maxInsts then .ok v else .error .infloop) := by
  by_cases hn : n < maxInsts
  · have hlt : ¬ o.code < 0x80 := Nat.not_lt.2 o.code_bounds.1
    have hst : ¬ maxStack ≤ (clean env r).stack.length := by simp [clean, maxStack]
    simp only [step, if_neg (Nat.not_le.2 hn), if_neg hst, hat, if_neg hlt, Op.ofByte_code, if_pos hn]
    rcases ho with ⟨rfl, rfl⟩ | ⟨rfl, rfl⟩ <;> rfl
  · simp only [step, if_pos (Nat.not_lt.1 hn), if_neg hn]

theorem interprets_ok :
    Interprets env prog (.ok o) ↔ env.ts.prefer = .cdr ∧ Ends (step env prog.code) (start env) (.ok o) := by
  unfold Interprets bcInterpret
  split_ifs with hp
  · simp [hp]
  have hp' : env.ts.prefer = .cdr := not_not.1 hp
  constructor
  · rintro ⟨fuel, h⟩
    exact ⟨hp', ends_of_run h⟩
  · exact fun h => run_of_ends h.2

theorem Interprets.unique (h : Interprets env prog o) (h' : Interprets env prog o') : o = o' := by
  obtain ⟨fuel, h⟩ := h
  obtain ⟨fuel', h'⟩ := h'
  unfold bcInterpret at h h'
  split_ifs at h h'
  · exact some.inj (h.symm.trans h')
  · exact (ends_of_run h).unique (ends_of_run h')

theorem filterCode_length (ts : TypeSupport) (e : Expr Pred) : (filterCode ts e).length = e.size (scheme ts) + 5 := by
  simp only [filterCode, length_append, Expr.code_length, (scheme ts).branch_length]
  rfl

/-- **The program of a condition returns the condition's value**, if each predicate of the trail runs and the counter
stays in bounds; otherwise it returns nothing. -/
theorem interprets_filter (hcode : prog.code = filterCode env.ts e)
    (hlen : prog.code.length ≤ 65536) (hp : ∀ p ∈ e.atoms, Admits env truth p) :
    Interprets env prog (.ok o) ↔ env.ts.prefer = .cdr ∧
      ∃ n, tour (visit env) tick (e.trail truth) 0 = some n ∧ n < maxInsts ∧ o = if e.eval truth then 1 else 0 := by
  rw [interprets_ok]
  apply and_congr_right
  intro _
  let S := scheme env.ts
  have hsz : e.size S + 5 ≤ 65536 := by
    rw [hcode, filterCode_length] at hlen
    exact hlen
  have hat : At prog.code 0 (filterCode env.ts e) := ⟨[], [], by rw [hcode, nil_append, append_nil], rfl⟩
  have hbr := hat.right
  rw [Expr.code_length] at hbr
  have hret := hbr.right
  have hcl : Gets (step env prog.code) good (start env)
      (fun n s => ∃ r, s = ⟨if e.eval truth then 0 + e.size S + 3 else e.size S + 4, n, clean env r⟩)
      (tour (visit env) tick (e.trail truth) 0) :=
    (filterDriver env truth prog.code).closes hp (show 0 + e.size S + 3 < 65536 by omega)
      (show e.size S + 4 < 65536 by omega) (by rw [Nat.zero_add]; exact hat.left) hbr.left ⟨0, rfl⟩
  have hend : ∀ n r, step env prog.code ⟨if e.eval truth then 0 + e.size S + 3 else e.size S + 4, n, clean env r⟩ =
      .inr (if n < maxInsts then .ok (if e.eval truth then 1 else 0) else .error .infloop) := by
    intro n r
    by_cases hv : e.eval truth = true
    · rw [if_pos hv, if_pos hv]
      exact step_return (.inl ⟨rfl, rfl⟩) hret.head
    rw [if_neg hv, if_neg hv]
    have hlast := hret.tail.head
    rw [Nat.zero_add] at hlast
    exact step_return (.inr ⟨rfl, rfl⟩) hlast
  cases htour : tour (visit env) tick (e.trail truth) 0 with
  | none =>
    rw [htour] at hcl
    obtain ⟨bad, hbad, hends⟩ := hcl
    constructor
    · intro h
      rw [hends.unique h] at hbad
      exact absurd trivial hbad
    · rintro ⟨n, h, -⟩
      cases h
  | some n =>
    rw [htour] at hcl
    obtain ⟨t, hlead, r, rfl⟩ := hcl
    rw [hlead.ends_iff]
    have hst := Ends.of_step (hend n r)
    constructor
    · intro h
      have heq := hst.unique h
      by_cases hn : n < maxInsts
      · rw [if_pos hn] at heq
        exact ⟨n, rfl, hn, (Outcome.ok.inj heq).symm⟩
      · rw [if_neg hn] at heq
        cases heq
    · rintro ⟨m, hm, hn, rfl⟩
      cases hm
      rw [if_pos hn] at hst
      exact hst

theorem accepted_admits (h : sqlParseFilter env.ts toks = .ok prog)
    (he : Derives .condition toks e) (hl : ∀ p ∈ e.atoms, Leaves env truth p) :
    prog.code = filterCode env.ts e ∧ ∀ p ∈ e.atoms, Admits env truth p ∧ Within prog.npars (p.instrs env.ts) := by
  obtain ⟨e', he', hcode, hat⟩ := sqlParseFilter_ok h
  obtain rfl := he.unique he'
  refine ⟨hcode, fun p hp => ?_⟩
  obtain ⟨is, his, hw⟩ := hat p hp
  exact ⟨⟨⟨is, his⟩, hl p hp⟩, by rw [instrs_of_assemble his]; exact hw⟩

/-- **The value of a filter**: whatever a filter's program returns is the truth value of the condition that the grammar
reads in it, for any truth values its predicates leave. -/
theorem filter_returns_value {toks : List Token} {prog : Program} (h : sqlParseFilter env.ts toks = .ok prog)
    (hlen : prog.code.length ≤ 65535) :
    (∃ e, Derives .condition toks e) ∧ ∀ (e : Expr Pred) (truth : Pred → Bool) (result : Int),
      Derives .condition toks e → (∀ p ∈ e.atoms, Leaves env truth p) → Interprets env prog (.ok result) →
        result = if e.eval truth then 1 else 0 := by
  refine ⟨(sqlParseFilter_ok h).imp fun _ he => he.1, ?_⟩
  intro e truth result he hl hi
  obtain ⟨hcode, hat⟩ := accepted_admits h he hl
  obtain ⟨-, n, -, -, hr⟩ := (interprets_filter hcode (Nat.le_succ_of_le hlen) fun p hp => (hat p hp).1).1 hi
  exact hr

def pairEnv (a b : Int) : Env Int where
  lci i := i
  lc _ _ := 0
  lp _ _ := 0
  cmp _ x y := x - y
  btw _ x y z := if y ≤ x ∧ x ≤ z then 1 else 0
  like _ _ := 0
  conv _ x := x
  isTrue x := x ≠ 0
  int x := x
  ts := ⟨.cdr, some (.struct [(['a'], some (.simple .long)), (['b'], some (.simple .long))])⟩
  data _ _ idx := if idx = 0 then a else b
  data2 := none
  pars := []

def isNumber (name : Char) (i : Int) : Pred := .comp (.field [name] []) .eq (.param (.int i))

def precedenceFilter : List Token :=
  [.not, .id ['a'], .eq, .param (.int 1), .and, .id ['b'], .eq, .param (.int 2), .or, .id ['a'], .eq, .param (.int 3)]

def precedenceExpr : Expr Pred :=
  .or (.and (.not (.atom (isNumber 'a' 1))) (.atom (isNumber 'b' 2))) (.atom (isNumber 'a' 3))

def precedenceProgram : Program :=
  ⟨[149, 0, 0, 1, 177, 192, 0, 16, 149, 0, 1, 2, 177, 192, 0, 24, 149, 0, 0, 3, 177, 193, 0, 25, 242, 243], 0⟩

def numberTruth (a b : Int) : Pred → Bool
  | .comp (.field name []) .eq (.param (.int i)) => (if name = ['a'] then a else b) = i
  | _ => false

theorem precedenceExpr_derives : Derives .condition precedenceFilter precedenceExpr :=
  .condition (.term (.not (.pred (isNumber 'a' 1))) (.and (.pred (isNumber 'b' 2)) (.andDone _)))
    (.or (.term (.pred (isNumber 'a' 3)) (.andDone _)) (.orDone _))

theorem precedence_filter_value : Interprets (pairEnv 3 2) precedenceProgram (.ok 1) ∧
    (1 : Int) = if precedenceExpr.eval (numberTruth 3 2) then 1 else 0 := by
  have h : Interprets (pairEnv 3 2) precedenceProgram (.ok 1) := ⟨100, rfl⟩
  have hacc : sqlParseFilter (pairEnv 3 2).ts precedenceFilter = .ok precedenceProgram := by decide +kernel
  refine ⟨h, (filter_returns_value hacc (by decide)).2 _ _ 1 precedenceExpr_derives ?_ h⟩
  have hatoms : precedenceExpr.atoms = [isNumber 'a' 1, isNumber 'b' 2, isNumber 'a' 3] := rfl
  intro p hp
  simp only [hatoms, mem_cons, not_mem_nil, or_false] at hp
  rcases hp with rfl | rfl | rfl <;> (intro d hd; cases hd; rfl)

/-! ## When a filter runs -/

def Instr.isNop : Instr → Bool
  | .nop _ => true
  | _ => false

def Instr.hasReach : Instr → Bool
  | .cref idx => idx < 65536
  | _ => true

def Pred.HasOpcodes (ts : TypeSupport) (p : Pred) : Prop := ∀ i ∈ p.instrs ts, i.isNop = false

instance (ts : TypeSupport) : DecidablePred (HasOpcodes ts) := fun p =>
  inferInstanceAs (Decidable (∀ i ∈ p.instrs ts, i.isNop = false))

def Pred.SmallPaths (ts : TypeSupport) (p : Pred) : Prop := ∀ i ∈ p.instrs ts, i.hasReach

instance (ts : TypeSupport) : DecidablePred (SmallPaths ts) := fun p =>
  inferInstanceAs (Decidable (∀ i ∈ p.instrs ts, i.hasReach = true))

def Pred.holds (env : Env E) (p : Pred) : Bool :=
  ((execAll env (p.instrs env.ts) (clean env 0)).bind (p.verdict env.toValues)).getD false

/-- The instruction counter over predicates with the branches behind them, for as long as it is in bounds. -/
def filterCount (ts : TypeSupport) (ps : List Pred) : Option Nat :=
  tour (fun p => countAll (p.instrs ts)) tick ps 0

theorem holds_leaves (h : ∃ is, assemble env.ts p = .ok is) : Leaves env (holds env) p := by
  obtain ⟨is, his⟩ := h
  intro d hd
  have hsh : Shape env p (p.instrs env.ts) := by
    rw [instrs_of_assemble his]
    exact assemble_shape his
  obtain ⟨-, b, -, hb, -⟩ := hsh.branches hd
  simp [holds, hd, hb, getD_some]

theorem execAll_hasOpcodes : ∀ {is : List Instr} {d d' : Regs E}, execAll env is d = some d' → ∀ i ∈ is, i.isNop = false
  | [], _, _, _, _, hi => by cases hi
  | j :: is, d, d', h, i, hi => by
    obtain ⟨d1, h1, h2⟩ := bind_eq_some_iff.1 h
    rcases mem_cons.1 hi with rfl | hi
    · cases i with
      | nop arg => exact absurd (exec_eq_some h1) nofun
      | _ => rfl
    · exact execAll_hasOpcodes h2 i hi

theorem Shape.runs (hsh : Shape env p is) (hf : ∀ i ∈ is, i.Fine env) (r : Int) :
    ∃ d, execAll env is (clean env r) = some d := by
  have hload : ∀ {k js o}, k < maxStack → Loads env k js → is = js ++ [Instr.op o] →
      ∃ xs : List E, xs.length = k ∧ execAll env is (clean env r) =
        Regs.apply env.toValues ⟨xs, r, false, env.ts.cdr, 0, []⟩ o := by
    rintro k js o hk hl rfl
    obtain ⟨d, hd⟩ := hl.runs (clean_top env r) (by simpa [clean] using hk)
      (forall_mem_append.1 hf).1
    obtain ⟨xs, hx, rfl⟩ := hl.pushes (clean_top env r) hd
    refine ⟨xs, hx, ?_⟩
    have hs : ¬ maxStack ≤ (xs ++ (clean env r).stack).length := by simp only [clean, append_nil, hx]; omega
    rw [execAll_append, hd, bind_some, execAll_singleton, Instr.exec, if_neg hs, Instr.perform]
    simp [clean]
  cases hsh with
  | cmp k _ hl | like hl =>
    obtain ⟨xs, hx, h⟩ := hload (by decide) hl rfl
    obtain ⟨y, x, rfl⟩ := length_eq_two.1 hx
    exact ⟨_, h⟩
  | btw k hl =>
    obtain ⟨xs, hx, h⟩ := hload (by decide) hl rfl
    obtain ⟨b, a, x, rfl⟩ := length_eq_three.1 hx
    exact ⟨_, h⟩

theorem Admits.visit_guarded (h : Admits env truth p) (hw : Within k (p.instrs env.ts))
    (hk : k ≤ env.pars.length) (hs : p.SmallPaths env.ts) (n : Nat) :
    visit env p n = if p.HasOpcodes env.ts then countAll (p.instrs env.ts) n else none := by
  unfold visit
  by_cases ho : p.HasOpcodes env.ts
  · have hf : ∀ i ∈ p.instrs env.ts, i.Fine env := by
      intro i hi
      cases i with
      | nop arg => exact absurd (ho _ hi) nofun
      | cref idx => exact show idx < 65536 from of_decide_eq_true (hs _ hi)
      | lp k idx =>
        have hneed : idx + 1 ≤ _ := hw _ hi
        exact show idx % 256 < env.pars.length from Nat.lt_of_le_of_lt (Nat.mod_le ..) (by omega)
      | _ => trivial
    obtain ⟨d, hd⟩ := h.shape.runs hf 0
    rw [if_pos ho, hd, bind_some]
  · rw [if_neg ho]
    cases hd : execAll env (p.instrs env.ts) (clean env 0) with
    | none => rfl
    | some d => exact absurd (execAll_hasOpcodes hd) ho

/-- **When a filter runs**: an accepted filter returns a result for a sample exactly if it is CDR, every instruction of
the predicates looked at has an opcode, and the instruction counter stays in bounds. -/
theorem filter_runs_iff {toks : List Token} {prog : Program} (h : sqlParseFilter env.ts toks = .ok prog)
    (hlen : prog.code.length ≤ 65536) (hpars : prog.npars ≤ env.pars.length) :
    ∃ e, Derives .condition toks e ∧ ((∀ p ∈ e.atoms, p.SmallPaths env.ts) →
      ((∃ result, Interprets env prog (.ok result)) ↔ env.ts.prefer = .cdr ∧
        (∀ p ∈ e.trail (Pred.holds env), p.HasOpcodes env.ts) ∧
        ∃ n, filterCount env.ts (e.trail (Pred.holds env)) = some n ∧ n < maxInsts)) := by
  obtain ⟨e, he, hcode, hat⟩ := sqlParseFilter_ok h
  refine ⟨e, he, fun hs => ?_⟩
  have hadm : ∀ p ∈ e.atoms, Admits env (Pred.holds env) p := by
    intro p hp
    have hok := (hat p hp).imp fun _ h => h.1
    exact ⟨hok, holds_leaves hok⟩
  have hguard : tour (visit env) tick (e.trail (Pred.holds env)) 0 = if ∀ p ∈ e.trail (Pred.holds env),
    p.HasOpcodes env.ts
      then filterCount env.ts (e.trail (Pred.holds env)) else none := by
    apply JumpCode.tour_guarded
    intro p hp n
    have hm := e.trail_subset _ p hp
    obtain ⟨is, his, hw⟩ := hat p hm
    rw [← instrs_of_assemble his] at hw
    exact (hadm p hm).visit_guarded hw hpars (hs p hm) n
  constructor
  · rintro ⟨result, hr⟩
    obtain ⟨hc, n, hn, hlt, -⟩ := (interprets_filter hcode hlen hadm).1 hr
    rw [hguard] at hn
    split_ifs at hn with ho
    exact ⟨hc, ho, n, hn, hlt⟩
  · rintro ⟨hc, ho, n, hn, hlt⟩
    rw [if_pos ho, hn] at hguard
    exact ⟨_, (interprets_filter hcode hlen hadm).2 ⟨hc, n, hguard, hlt, rfl⟩⟩

theorem precedence_filter_runs : ∃ result, Interprets (pairEnv 3 2) precedenceProgram (.ok result) := by
  have hacc : sqlParseFilter (pairEnv 3 2).ts precedenceFilter = .ok precedenceProgram := by decide +kernel
  obtain ⟨e, he, h⟩ := filter_runs_iff hacc (by decide) (by decide)
  obtain rfl := he.unique precedenceExpr_derives
  exact (h (by decide +kernel)).2 ⟨rfl, by decide +kernel, 5, by decide +kernel, by decide⟩

def enumEnv : Env Int :=
  { pairEnv 0 0 with
    ts := ⟨.cdr, some (.struct [(['c'], some (.enumeration [(['R'], 0), (['G'], 1)]))])⟩
    pars := [[71]] }

/-- c = %0, with c enumerated: no opcode loads the parameter as one of its constants. -/
theorem enum_parameter_fails : ∃ prog, sqlParseFilter enumEnv.ts [.id ['c'], .eq, .param (.par 0)] = .ok prog ∧
    prog.npars ≤ enumEnv.pars.length ∧ Interprets enumEnv prog (.error .invop) ∧
    ¬ ∃ result, Interprets enumEnv prog (.ok result) := by
  have h : Interprets enumEnv ⟨[149, 0, 0, 255, 0, 177, 193, 0, 10, 242, 243], 1⟩ (.error .invop) := ⟨100, rfl⟩
  refine ⟨_, by decide +kernel, by decide, h, ?_⟩
  rintro ⟨result, hr⟩
  cases h.unique hr

end Qeo.Sql
