import QeoCore.SqlAssemble
/-!
# SqlCompile — the one-pass compiler writes jumping code

`factor`, `term` and `condition` keep the branches whose targets they do not know in two chains.  What they write is the
code of the expression with the open targets still zero (`condition_ok`), and patching gives the program.
-/
namespace Qeo.Sql

open List Sql.Pred JumpCode

section
variable (ts : TypeSupport)

def block (p : Pred) : List Nat :=
  match assemble ts p with
  | .ok is => encode is
  | .error _ => []

def scheme : Scheme Pred Cond Nat where
  block := block ts
  cond := condition
  neg := Cond.complement
  width := 3
  branch c t := (Op.br c).code :: wordBytes t
  patch code o t := (code.set (o + 1) (t / 256 % 256)).set (o + 2) (t % 256)
  branch_length _ _ := rfl
  patch_branch pre c u post t := by simp [wordBytes, List.set_append_right]

theorem Gen.backpatch_code (g : Gen) (chain : List Nat) (ofs : Nat) :
    (g.backpatch chain ofs).code = (scheme ts).backpatch g.code chain ofs := rfl

theorem Gen.genCondition_code (g : Gen) (c : Cond) :
    (g.genCondition c).code = g.code ++ (scheme ts).branch c 0 := by
  rw [Gen.genCondition, Gen.emits_code, Gen.op_code, append_assoc]; rfl

end

structure Compiled (ts : TypeSupport) (g g' : Gen) (e : Expr Pred) (op : DataObject) : Prop where
  code : g'.code = g.code ++ e.code (scheme ts) g.code.length 0 0
  tchain : op.tchain = (e.holes (scheme ts) g.code.length).1
  fchain : op.fchain = (e.holes (scheme ts) g.code.length).2
  cond : op.condition = e.cond (scheme ts)
  npars : g.npars ≤ g'.npars
  atoms : ∀ p ∈ e.atoms, ∃ is, assemble ts p = .ok is ∧ Within g'.npars is

variable {ts : TypeSupport} {g g' g1 : Gen} {e x y : Expr Pred} {op np : DataObject}

theorem Compiled.negate (h : Compiled ts g g' e op) : Compiled ts g g' (.not e) op.negate :=
  ⟨h.code, h.fchain, h.tchain, congrArg Cond.complement h.cond, h.npars, h.atoms⟩

section
variable (h : Compiled ts g g' x op)
include h

theorem Compiled.genCondition_curPc (c : Cond) :
    (g'.genCondition c).curPc = g.code.length + x.size (scheme ts) + 3 := by
  rw [Gen.curPc, Gen.genCondition_code ts, h.code]
  simp only [length_append, Expr.code_length, (scheme ts).branch_length]
  rfl

theorem Compiled.whenTrue :
    (g'.whenTrue op).1.code = g.code ++ (x.code (scheme ts) g.code.length (g.code.length + x.size (scheme ts) + 3) 0
      ++ (scheme ts).branch (x.cond (scheme ts)) 0) := by
  have hp := (x.patch_holes (scheme ts) (g.code.length + x.size (scheme ts) + 3) g.code
    ((scheme ts).branch (x.cond (scheme ts)) 0) g.code.length 0 0 rfl).1
  simp only [Gen.whenTrue, h.genCondition_curPc, Gen.backpatch_code ts, Gen.genCondition_code ts]
  rw [h.code, h.tchain, h.cond, append_assoc, hp]

theorem Compiled.curPc : g'.curPc = g.code.length + x.size (scheme ts) := by
  rw [Gen.curPc, h.code, length_append, Expr.code_length]

theorem Compiled.atoms_append (hn : g'.npars ≤ g1.npars)
    (h' : ∀ p ∈ y.atoms, ∃ is, assemble ts p = .ok is ∧ Within g1.npars is) :
    ∀ p ∈ x.atoms ++ y.atoms, ∃ is, assemble ts p = .ok is ∧ Within g1.npars is := by
  intro p hp
  rcases mem_append.1 hp with hp | hp
  · obtain ⟨is, his, hw⟩ := h.atoms p hp
    exact ⟨is, his, fun i hi => Nat.le_trans (hw i hi) hn⟩
  · exact h' p hp

theorem Compiled.and (h' : Compiled ts (g'.whenTrue op).1.next g1 y np) :
    Compiled ts g g1 (.and x y) ((g'.whenTrue op).2.boolOp np) := by
  have hcode : (g'.whenTrue op).1.next.code = _ := h.whenTrue
  have hlen : (g'.whenTrue op).1.next.code.length = g.code.length + x.size (scheme ts) + (scheme ts).width := by
    rw [hcode]
    simp only [length_append, Expr.code_length, (scheme ts).branch_length]; omega
  obtain ⟨hc, ht, hf, hcond, hn, ha⟩ := h'
  rw [hlen] at hc ht hf
  refine ⟨?_, ?_, ?_, hcond, Nat.le_trans h.npars hn, h.atoms_append hn ha⟩
  · rw [hc, hcode]
    simp only [append_assoc]; rfl
  · exact ht
  · simp only [DataObject.boolOp, Gen.whenTrue, h.fchain, h.curPc, hf, Expr.holes]

theorem Compiled.or (h' : Compiled ts (g'.whenFalse op).1.next g1 y np) :
    Compiled ts g g1 (.or x y) ((g'.whenFalse op).2.boolOp np) :=
  have hnot := (h.negate.and h'.negate).negate
  ⟨hnot.code, hnot.tchain, hnot.fchain, h'.cond, hnot.npars, hnot.atoms⟩

end

/-! ## The functions of the grammar -/

def Reads (ts : TypeSupport) (s : Nonterminal) (g0 g g' : Gen) (op : DataObject) : Prop :=
  ∃ us e, Derives s us e ∧ g.toks = us ++ g'.toks ∧ Compiled ts g0 g' e op

theorem Compiled.atom (has : assemble ts p = .ok is) (hem : Emitted g g' is) :
    Compiled ts g g' (.atom p) ⟨[], [], p.condition⟩ := by
  refine ⟨?_, rfl, rfl, rfl, hem.npars, ?_⟩
  · rw [hem.code, Expr.code]
    simp only [scheme, block, has]
  · intro q hq
    obtain rfl := mem_singleton.1 hq
    exact ⟨is, has, hem.needs⟩

theorem Compiled.expect (h : Compiled ts g g' e op) (hx : g'.expect tok text = .ok g1) :
    g'.toks = tok :: g1.toks ∧ Compiled ts g g1 e op := by
  unfold Gen.expect at hx
  split_ifs at hx with hd
  cases hx
  exact ⟨cons_of_head? hd, ⟨h.code, h.tchain, h.fchain, h.cond, h.npars, h.atoms⟩⟩

/-- Each of the functions, with any fuel, reads what the grammar says and writes its code. -/
structure Sound (ts : TypeSupport) (fuel : Nat) : Prop where
  factor : ∀ {g g' op}, Gen.factor ts fuel g = .ok (g', op) → Reads ts .factor g g g' op
  term : ∀ {g g' op}, Gen.term ts fuel g = .ok (g', op) → Reads ts .term g g g' op
  termLoop : ∀ {g0 g g' x op op'}, Compiled ts g0 g x op → Gen.termLoop ts fuel g op = .ok (g', op') →
    Reads ts (.andRest x) g0 g g' op'
  condition : ∀ {g g' op}, Gen.condition ts fuel g = .ok (g', op) → Reads ts .condition g g g' op
  conditionLoop : ∀ {g0 g g' x op op'}, Compiled ts g0 g x op → Gen.conditionLoop ts fuel g op = .ok (g', op') →
    Reads ts (.orRest x) g0 g g' op'

theorem Sound.step_factor (ih : Sound ts fuel) (h : Gen.factor ts (fuel + 1) g = .ok (g', op)) :
    Reads ts .factor g g g' op := by
  rw [Gen.factor] at h
  split at h
  · rename_i rest htoks
    obtain ⟨⟨g1, np⟩, h1, h⟩ := bind_ok h
    cases h
    obtain ⟨us, e, hd, htk, hc⟩ := ih.factor h1
    refine ⟨.not :: us, .not e, hd.not, ?_, Compiled.negate ⟨hc.code, hc.tchain, hc.fchain, hc.cond, hc.npars,
      hc.atoms⟩⟩
    rw [htoks]
    rw [Gen.next, htoks] at htk
    exact congrArg _ htk
  · rename_i rest htoks
    obtain ⟨⟨g1, np⟩, h1, h⟩ := bind_ok h
    obtain ⟨g2, h2, h⟩ := bind_ok h
    cases h
    obtain ⟨us, e, hd, htk, hc⟩ := ih.condition h1
    obtain ⟨hr, hc'⟩ := hc.expect h2
    refine ⟨.lpar :: (us ++ [.rpar]), e, hd.paren, ?_, ⟨hc'.code, hc'.tchain, hc'.fchain, hc'.cond, hc'.npars,
      hc'.atoms⟩⟩
    rw [Gen.next, htoks, hr] at htk
    rw [htoks, cons_append, append_assoc]
    exact congrArg _ htk
  · obtain ⟨⟨g1, c⟩, h1, h⟩ := bind_ok h
    cases h
    obtain ⟨p, is, htk, has, rfl, hem⟩ := Gen.predicate_ok h1
    exact ⟨p.tokens, .atom p, .pred p, htk, .atom has hem⟩

theorem Sound.step_termLoop (ih : Sound ts fuel)
    (hx : Compiled ts g0 g x op) (h : Gen.termLoop ts (fuel + 1) g op = .ok (g', op')) :
    Reads ts (.andRest x) g0 g g' op' := by
  rw [Gen.termLoop] at h
  split_ifs at h with hd
  · obtain ⟨⟨g1, np⟩, h1, h⟩ := bind_ok h
    obtain ⟨us, y, hy, htk, hc⟩ := ih.factor h1
    obtain ⟨vs, e, he, htk', hc'⟩ := ih.termLoop (hx.and hc) h
    refine ⟨.and :: (us ++ vs), e, .and hy he, ?_, hc'⟩
    have hrest : g.toks.tail = us ++ g1.toks := htk
    rw [cons_of_head? hd, hrest, htk', cons_append, append_assoc]
  · cases h
    exact ⟨[], x, .andDone x, rfl, hx⟩

theorem Sound.step_conditionLoop (ih : Sound ts fuel)
    (hx : Compiled ts g0 g x op) (h : Gen.conditionLoop ts (fuel + 1) g op = .ok (g', op')) :
    Reads ts (.orRest x) g0 g g' op' := by
  rw [Gen.conditionLoop] at h
  split_ifs at h with hd
  · obtain ⟨⟨g1, np⟩, h1, h⟩ := bind_ok h
    obtain ⟨us, y, hy, htk, hc⟩ := ih.term h1
    obtain ⟨vs, e, he, htk', hc'⟩ := ih.conditionLoop (hx.or hc) h
    refine ⟨.or :: (us ++ vs), e, .or hy he, ?_, hc'⟩
    have hrest : g.toks.tail = us ++ g1.toks := htk
    rw [cons_of_head? hd, hrest, htk', cons_append, append_assoc]
  · cases h
    exact ⟨[], x, .orDone x, rfl, hx⟩

theorem sound (ts : TypeSupport) : ∀ fuel, Sound ts fuel
  | 0 => ⟨nofun, nofun, nofun, nofun, nofun⟩
  | fuel + 1 => by
    have ih := sound ts fuel
    refine ⟨ih.step_factor, ?_, ih.step_termLoop, ?_, ih.step_conditionLoop⟩
    · intro g g' op h
      obtain ⟨⟨g1, op1⟩, h1, h⟩ := bind_ok h
      obtain ⟨us, x, hx, htk, hc⟩ := ih.factor h1
      obtain ⟨vs, e, he, htk', hc'⟩ := ih.termLoop hc h
      exact ⟨us ++ vs, e, .term hx he, by rw [htk, htk', append_assoc], hc'⟩
    · intro g g' op h
      obtain ⟨⟨g1, op1⟩, h1, h⟩ := bind_ok h
      obtain ⟨us, x, hx, htk, hc⟩ := ih.term h1
      obtain ⟨vs, e, he, htk', hc'⟩ := ih.conditionLoop hc h
      exact ⟨us ++ vs, e, .condition hx he, by rw [htk, htk', append_assoc], hc'⟩

def filterCode (ts : TypeSupport) (e : Expr Pred) : List Nat :=
  e.code (scheme ts) 0 (e.size (scheme ts) + 3) (e.size (scheme ts) + 4)
    ++ ((scheme ts).branch (e.cond (scheme ts)) (e.size (scheme ts) + 4) ++ [Op.rett.code, Op.retf.code])

theorem Compiled.patchOut (hg : g.code = []) (h : Compiled ts g g' e op) : (g'.patchOut op).code = filterCode ts e := by
  have h1 := h.whenTrue
  have hcur := h.curPc
  have hch : (g'.whenTrue op).2.fchain = (e.holes (scheme ts) 0).2 ++ [e.size (scheme ts)] := by
    simp [Gen.whenTrue, h.fchain, hcur, hg]
  simp only [hg, length_nil, Nat.zero_add, nil_append] at h1
  have h2 : ((g'.whenTrue op).1.op .rett).code = e.code (scheme ts) 0 (e.size (scheme ts) + 3) 0
      ++ ((scheme ts).branch (e.cond (scheme ts)) 0 ++ [Op.rett.code]) := by
    rw [Gen.op_code, h1, append_assoc]
  have hpc : ((g'.whenTrue op).1.op .rett).curPc = e.size (scheme ts) + 4 := by
    rw [Gen.curPc, h2]
    simp only [length_append, Expr.code_length, (scheme ts).branch_length, length_singleton]; rfl
  have hp := (e.patch_holes (scheme ts) (e.size (scheme ts) + 4) [] ((scheme ts).branch (e.cond (scheme ts)) 0
    ++ [Op.rett.code]) 0 (e.size (scheme ts) + 3) 0 rfl).2
  have hb := (scheme ts).backpatch_branch (e.code (scheme ts) 0 (e.size (scheme ts) + 3) (e.size (scheme ts) + 4))
    [Op.rett.code] (e.cond (scheme ts)) 0 (e.size (scheme ts) + 4)
  rw [nil_append, nil_append] at hp
  rw [Expr.code_length] at hb
  show (((((g'.whenTrue op).1.op .rett).backpatch (g'.whenTrue op).2.fchain
    ((g'.whenTrue op).1.op .rett).curPc).op .retf).code) = _
  rw [Gen.op_code, Gen.backpatch_code ts, hpc, h2, hch, (scheme ts).backpatch_append, hp, hb, filterCode]
  simp

/-- **An accepted filter is a condition of the grammar, and its program is the jumping code of that condition.** -/
theorem sqlParseFilter_ok (h : sqlParseFilter ts toks = .ok prog) :
    ∃ e, Derives .condition toks e ∧ prog.code = filterCode ts e ∧
      ∀ p ∈ e.atoms, ∃ is, assemble ts p = .ok is ∧ Within prog.npars is := by
  obtain ⟨⟨g, op⟩, h1, h⟩ := bind_ok h
  obtain ⟨us, e, hd, htk, hc⟩ := (sound ts _).condition h1
  dsimp only at h
  split_ifs at h with hend
  cases h
  have hg : g.toks = [] := hend
  refine ⟨e, ?_, hc.patchOut rfl, hc.atoms⟩
  rw [hg, append_nil] at htk
  rw [show toks = us from htk]
  exact hd

end Qeo.Sql
