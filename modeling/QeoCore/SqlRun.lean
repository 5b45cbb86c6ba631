import QeoCore.SqlCompile
/-!
# SqlRun — the interpreter on assembled instructions

`Instr.exec` is what an instruction does to the registers and `Instr.count` what it does to the instruction counter.
The interpreter follows both on encoded instructions (`step_instr`, `run_block`).
-/
namespace Qeo.Sql

open List Option Nat JumpCode

variable {E : Type} {env : Env E} {code : List Nat} {pc n idx : Nat} {d d' : Regs E}

def Instr.perform (env : Env E) (d : Regs E) : Instr → Option (Regs E)
  | .lci b => some (d.push (env.lci (embedded b)))
  | .lc k bytes => some (d.push (env.lc k bytes))
  | .str text => some (d.push (env.lc .s text))
  | .ld k idx => (d.load env k (idx % 65536)).toOption
  | .lp k idx => (env.pars[idx % 256]?).map fun text => d.push (env.lp k text)
  | .op o => d.apply env.toValues o
  | .cref idx => (d.container env (idx % 65536)).toOption
  | .nop _ => none

def Instr.exec (env : Env E) (d : Regs E) (i : Instr) : Option (Regs E) :=
  if maxStack ≤ d.stack.length then none else i.perform env d

def Instr.count (n : Nat) : Instr → Nat
  | .ld _ idx | .cref idx => idx % 65536 + 1
  | _ => n + 1

def Op.plain : Op → Prop
  | .cmp _ | .btw _ | .like | .conv _ => True
  | _ => False

def Instr.WF : Instr → Prop
  | .lci b => b < 0x80
  | .lc k bytes => k ≠ .s ∧ bytes.length = k.width
  | .str text => ∀ c ∈ text, c ≠ 0
  | .op o => o.plain
  | _ => True

def good : Outcome → Prop
  | .ok _ => True
  | _ => False

/-! ## One instruction -/

theorem word_of_at (h : At code pc (wordBytes idx)) : word code pc = some (idx % 65536) := by
  have h0 := h.head
  have h1 := h.tail.head
  simp only [word, h0, h1]
  congr 1; omega

theorem constant_of_at (hk : k ≠ .s) (hl : bytes.length = k.width)
    (h : At code pc bytes) : constantAt code pc k = some (bytes, pc + k.width) := by
  obtain ⟨post, hd⟩ := h.drop
  have ht : (code.drop pc).take k.width = bytes := by rw [hd, ← hl, take_left]
  cases k with
  | s => exact absurd rfl hk
  | _ => simp [constantAt, ht, hl]

theorem string_of_at (ht : ∀ c ∈ text, c ≠ 0) (h : At code pc (text ++ [0])) :
    constantAt code pc .s = some (text, pc + text.length + 1) := by
  obtain ⟨post, hd⟩ := h.drop
  have htw : (code.drop pc).takeWhile (· ≠ 0) = text := by
    rw [hd, append_assoc, takeWhile_append_of_pos (by simpa using ht)]
    simp
  have h0 : code[pc + text.length]? = some 0 := h.right.head
  simp only [constantAt, htw, h0, if_true]

theorem step_op (hn : n < maxInsts) (hs : d.stack.length < maxStack)
    (h : At code pc (op.code :: args)) : step env code ⟨pc, n, d⟩ = execute env code (pc + 1) n d op := by
  have hlt : ¬ op.code < 0x80 := Nat.not_lt.2 op.code_bounds.1
  simp only [step, if_neg (Nat.not_le.2 hn), if_neg (Nat.not_le.2 hs), h.head, if_neg hlt, Op.ofByte_code]

def Steps (env : Env E) (code : List Nat) (m : Machine E) (pc' n' : Nat) : Option (Regs E) → Prop
  | some d' => step env code m = .inl ⟨pc', n', d'⟩
  | none => ∃ o, ¬ good o ∧ step env code m = .inr o

theorem Steps.ofExcept {x : Except Outcome (Regs E)}
    (h : step env code m = match x with | .ok d' => goOn pc' n' d' | .error o => .inr o)
    (hx : ∀ o, x = .error o → ¬ good o) :
    Steps env code m pc' (n' + 1) x.toOption := by
  cases x with
  | ok d' => exact h
  | error o => exact ⟨o, hx o rfl, h⟩

theorem load_bad : ∀ o, d.load env k idx = .error o → ¬ good o := by
  intro o h
  unfold Regs.load at h
  repeat' split at h
  all_goals cases h <;> exact id

theorem container_bad : ∀ o, d.container env idx = .error o → ¬ good o := by
  intro o h
  unfold Regs.container at h
  repeat' split at h
  all_goals cases h <;> exact id

theorem step_instr (i : Instr) (hwf : i.WF) (hn : n < maxInsts) (h : At code pc i.encode) :
    Steps env code ⟨pc, n, d⟩ (pc + i.encode.length) (i.count n) (i.exec env d) := by
  by_cases hs : maxStack ≤ d.stack.length
  · rw [Instr.exec, if_pos hs]
    refine ⟨.error .stkovfl, id, ?_⟩
    simp only [step, if_neg (Nat.not_le.2 hn), if_pos hs]
  rw [Instr.exec, if_neg hs]
  have hs' := Nat.not_le.1 hs
  cases i with
  | lci b =>
    show step env code ⟨pc, n, d⟩ = _
    simp only [step, if_neg (Nat.not_le.2 hn), if_neg hs, h.head, if_pos (show b < 0x80 from hwf)]
    rfl
  | lc k bytes =>
    show step env code ⟨pc, n, d⟩ = _
    rw [step_op hn hs' h]
    simp only [execute, constant_of_at hwf.1 hwf.2 h.tail, Instr.encode, length_cons, hwf.2]
    rw [Nat.add_right_comm]; rfl
  | str text =>
    show step env code ⟨pc, n, d⟩ = _
    rw [step_op hn hs' h]
    simp only [execute, string_of_at hwf h.tail, Instr.encode, length_cons, length_append]
    simp only [goOn, Instr.count, length_nil]
    congr 2; omega
  | ld k idx =>
    refine Steps.ofExcept ?_ load_bad
    rw [step_op hn hs' h]
    simp only [execute, word_of_at h.tail]
    rfl
  | lp k idx =>
    have hst : step env code ⟨pc, n, d⟩ = execute env code (pc + 1) n d (.lp k) := step_op hn hs' h
    simp only [execute, h.tail.head] at hst
    simp only [Instr.perform]
    cases hp : env.pars[idx % 256]? with
    | none =>
      rw [hp] at hst
      exact ⟨.error .invpar, id, hst⟩
    | some text =>
      rw [hp] at hst
      exact hst
  | op o =>
    have hst : step env code ⟨pc, n, d⟩ = execute env code (pc + 1) n d o := step_op hn hs' h
    have hex : execute env code (pc + 1) n d o = match d.apply env.toValues o with
        | some d' => goOn (pc + 1) n d'
        | none => .inr .fault := by
      cases o <;> first | rfl | exact absurd hwf id
    rw [hex] at hst
    simp only [Instr.perform]
    cases ha : d.apply env.toValues o with
    | none =>
      rw [ha] at hst
      exact ⟨.fault, id, hst⟩
    | some d' =>
      rw [ha] at hst
      exact hst
  | cref idx =>
    refine Steps.ofExcept ?_ container_bad
    rw [step_op hn hs' h]
    simp only [execute, word_of_at h.tail]
    rfl
  | nop arg =>
    refine ⟨.error .invop, id, ?_⟩
    simp only [step, if_neg (Nat.not_le.2 hn), if_neg hs, h.head]
    rfl

/-! ## A row of instructions -/

def execAll (env : Env E) : List Instr → Regs E → Option (Regs E)
  | [], d => some d
  | i :: is, d => (i.exec env d).bind (execAll env is)

def countAll : List Instr → Nat → Option Nat
  | [], n => some n
  | i :: is, n => if n < maxInsts then countAll is (i.count n) else none

theorem execAll_append (is js : List Instr) (d : Regs E) :
    execAll env (is ++ js) d = (execAll env is d).bind (execAll env js) := by
  induction is generalizing d with
  | nil => rfl
  | cons i is ih =>
    simp only [cons_append, execAll, bind_assoc]
    congr 1; funext d'
    exact ih d'

/-- **The interpreter runs a row of instructions as they execute and count.** -/
theorem run_block : ∀ (is : List Instr) (_ : ∀ i ∈ is, i.WF) (pc n : Nat) (d : Regs E), At code pc (encode is) →
    Gets (step env code) good ⟨pc, n, d⟩
      (fun m t => ∃ d', execAll env is d = some d' ∧ t = ⟨pc + (encode is).length, m, d'⟩)
      ((execAll env is d).bind fun _ => countAll is n)
  | [], _, pc, n, d, _ => ⟨⟨pc, n, d⟩, .refl _, d, rfl, rfl⟩
  | i :: is, hwf, pc, n, d, h => by
    have hlen : (encode (i :: is)).length = i.encode.length + (encode is).length := by rw [encode_cons, length_append]
    by_cases hn : n < maxInsts
    · have hi : Steps env code ⟨pc, n, d⟩ (pc + i.encode.length) (i.count n) (i.exec env d) :=
        step_instr i (hwf i (mem_cons_self ..)) hn h.left
      simp only [execAll, countAll, if_pos hn]
      cases hx : i.exec env d with
      | none =>
        rw [hx] at hi
        obtain ⟨o, ho, hst⟩ := hi
        exact ⟨o, ho, .of_step hst⟩
      | some d1 =>
        rw [hx] at hi
        have ih := run_block is (forall_mem_cons.1 hwf).2 (pc + i.encode.length) (i.count n) d1
          h.right
        simp only [bind_some, hlen, ← Nat.add_assoc]
        exact ih.of_leads (.single hi)
    · have hnone : ((execAll env (i :: is) d).bind fun _ => countAll (i :: is) n) = none := by
        simp only [countAll, if_neg hn]
        cases execAll env (i :: is) d <;> rfl
      rw [hnone]
      refine ⟨.error .infloop, id, .of_step ?_⟩
      simp only [step, if_pos (Nat.not_lt.1 hn)]

/-! ## Operands -/

structure Regs.Top (env : Env E) (d : Regs E) : Prop where
  second : d.second = false
  ctp : d.ctp = env.ts.cdr
  cnest : d.cnest = 0
  offset : d.offset = []

open Regs

def Instr.Fine (env : Env E) : Instr → Prop
  | .nop _ => False
  | .lp _ idx => idx % 256 < env.pars.length
  | .cref idx => idx < 65536
  | _ => True

structure Loads (env : Env E) (k : Nat) (is : List Instr) : Prop where
  wf : ∀ i ∈ is, i.WF
  pushes : ∀ {d d' : Regs E}, d.Top env → execAll env is d = some d' →
    ∃ xs, xs.length = k ∧ d' = { d with stack := xs ++ d.stack }
  runs : ∀ {d : Regs E}, d.Top env → d.stack.length + k < maxStack → (∀ i ∈ is, i.Fine env) →
    ∃ d', execAll env is d = some d'

theorem Regs.Top.withStack (h : d.Top env) (xs : List E) : Top env { d with stack := xs } :=
  ⟨h.second, h.ctp, h.cnest, h.offset⟩

theorem Loads.append (hi : Loads env j is) (hj : Loads env k js) : Loads env (j + k) (is ++ js) := by
  refine ⟨fun i hm => (mem_append.1 hm).elim (hi.wf i) (hj.wf i), ?_, ?_⟩
  · intro d d' ht h
    rw [execAll_append] at h
    obtain ⟨d1, h1, h2⟩ := bind_eq_some_iff.1 h
    obtain ⟨xs, hx, rfl⟩ := hi.pushes ht h1
    obtain ⟨ys, hy, rfl⟩ := hj.pushes (ht.withStack _) h2
    exact ⟨ys ++ xs, by rw [length_append]; omega, by simp only [append_assoc]⟩
  · intro d ht hs hf
    obtain ⟨d1, h1⟩ := hi.runs ht (by omega) (forall_mem_append.1 hf).1
    obtain ⟨xs, hx, rfl⟩ := hi.pushes ht h1
    obtain ⟨d2, h2⟩ := hj.runs (ht.withStack (xs ++ d.stack)) (by simp only [length_append]; omega)
      (forall_mem_append.1 hf).2
    exact ⟨d2, by rw [execAll_append, h1, bind_some, h2]⟩

theorem exec_eq_some {i : Instr} (h : i.exec env d = some d') : i.perform env d = some d' := by
  unfold Instr.exec at h
  split_ifs at h
  exact h

theorem execAll_singleton (i : Instr) (d : Regs E) : execAll env [i] d = i.exec env d := bind_fun_some _

theorem Loads.single (hwf : i.WF) (hp : ∀ {d d' : Regs E}, i.perform env d = some d' → ∃ x, d' = d.push x)
    (hr : ∀ {d : Regs E}, i.Fine env → ∃ d', i.perform env d = some d') : Loads env 1 [i] := by
  refine ⟨fun j hj => (mem_singleton.1 hj).symm ▸ hwf, ?_, ?_⟩
  · intro d d' ht h
    rw [execAll_singleton] at h
    obtain ⟨x, rfl⟩ := hp (exec_eq_some h)
    exact ⟨[x], rfl, rfl⟩
  · intro d ht hs hf
    obtain ⟨d', h⟩ := hr (d := d) (hf i (mem_singleton.2 rfl))
    exact ⟨d', by rw [execAll_singleton, Instr.exec, if_neg (by omega), h]⟩

theorem Loads.par (k : Size) (index : Nat) : Loads env 1 [.lp k index] := by
  refine .single trivial (fun h => ?_) (fun hf => ?_)
  · obtain ⟨text, -, rfl⟩ := map_eq_some_iff.1 h
    exact ⟨_, rfl⟩
  · have hf' : index % 256 < env.pars.length := hf
    simp only [Instr.perform, getElem?_eq_getElem hf', map_some]
    exact ⟨_, rfl⟩

theorem Loads.nop (arg : List Nat) : Loads env 1 [.nop arg] := .single trivial nofun (fun hf => hf.elim)

theorem bytesOf_length (i : Int) : ∀ k, (bytesOf i k).length = k
  | 0 => rfl
  | k + 1 => congrArg (· + 1) (bytesOf_length i k)

theorem Instr.ofInt_wf (i : Int) : (Instr.ofInt i).1.WF := by
  unfold Instr.ofInt
  split_ifs
  · exact show (i % 128).toNat < 0x80 by omega
  · exact ⟨nofun, bytesOf_length i 1⟩
  · exact ⟨nofun, bytesOf_length i 1⟩
  · exact ⟨nofun, bytesOf_length i 2⟩
  · exact ⟨nofun, bytesOf_length i 2⟩
  · exact ⟨nofun, bytesOf_length i 4⟩
  · exact ⟨nofun, bytesOf_length i 4⟩
  · exact ⟨nofun, by exact bytesOf_length i 8⟩

theorem Loads.param (p : Param) : Loads env 1 [p.assemble.1] := by
  have hconst : ∀ i : Int, Loads env 1 [(Instr.ofInt i).1] := by
    intro i
    refine .single (Instr.ofInt_wf i) ?_ ?_ <;> unfold Instr.ofInt
    · split_ifs <;> exact fun h => ⟨_, (some.inj h).symm⟩
    · split_ifs <;> exact fun _ => ⟨_, rfl⟩
  cases p with
  | int i => exact hconst i
  | char c => exact hconst (charValue c)
  | float b =>
    exact .single ⟨nofun, by rw [length_map, Vector.length_toList]; rfl⟩
      (fun h => ⟨_, (some.inj h).symm⟩) (fun _ => ⟨_, rfl⟩)
  | string t =>
    refine .single ?_ (fun h => ⟨_, (some.inj h).symm⟩) (fun _ => ⟨_, rfl⟩)
    intro c hc
    obtain ⟨b, hb, rfl⟩ := mem_map.1 hc
    simpa using all_eq_true.1 all_takeWhile b hb
  | par index => exact .par .s index

theorem Loads.retype {k : Option Size} (h : Loads env 1 is) : Loads env 1 (Sql.retype k is) := by
  unfold Sql.retype
  split
  · split
    · exact .par _ _
    · exact .nop _
  · exact h

theorem Loads.conv (h : Loads env 1 is) (c : Option Conv) : Loads env 1 (is ++ [.ofConv c]) := by
  have hwf : (Instr.ofConv c).WF := by cases c <;> exact trivial
  refine ⟨fun i hm => (mem_append.1 hm).elim (h.wf i) fun hi => (mem_singleton.1 hi).symm ▸ hwf, ?_, ?_⟩
  · intro d d' ht h'
    rw [execAll_append] at h'
    obtain ⟨d1, h1, h2⟩ := bind_eq_some_iff.1 h'
    obtain ⟨xs, hx, rfl⟩ := h.pushes ht h1
    obtain ⟨x, rfl⟩ := length_eq_one_iff.1 hx
    rw [execAll_singleton] at h2
    cases c with
    | none => exact absurd (exec_eq_some h2) nofun
    | some c =>
      have h3 := some.inj (exec_eq_some h2)
      exact ⟨[env.conv c x], rfl, h3.symm⟩
  intro d ht hs hf
  obtain ⟨d1, h1⟩ := h.runs ht hs (forall_mem_append.1 hf).1
  obtain ⟨xs, hx, rfl⟩ := h.pushes ht h1
  obtain ⟨x, rfl⟩ := length_eq_one_iff.1 hx
  rw [execAll_append, h1, bind_some, execAll_singleton]
  cases c with
  | none => exact (hf (.nop []) (mem_append_right _ (mem_singleton.2 rfl))).elim
  | some c =>
    refine ⟨{ d with stack := env.conv c x :: d.stack }, ?_⟩
    rw [Instr.exec, if_neg (by simp only [length_append, length_singleton]; omega)]
    rfl

theorem memberAt_some : ∀ {members : List (Name × Option Ty)} {name : Name} {i j : Nat} {ty : Ty},
    memberAt name i members = some (j, ty) → ∃ l, j = i + l ∧ members[l]? = some (name, some ty)
  | [], _, _, _, _, h => by cases h
  | (m, mty) :: rest, name, i, j, ty, h => by
    unfold memberAt at h
    split_ifs at h with hm
    · obtain ⟨t, rfl, h⟩ := map_eq_some_iff.1 h
      cases h
      exact ⟨0, rfl, by rw [hm]; rfl⟩
    · obtain ⟨l, rfl, hl⟩ := memberAt_some h
      exact ⟨l + 1, by omega, hl⟩

def Regs.loaded (env : Env E) (d : Regs E) (x : E) : Regs E := ⟨x :: d.stack, d.r, false, env.ts.cdr, 0, []⟩

theorem load_ok (ht : d.cnest = 0 → d.Top env) (h : d.load env k idx = .ok d') : ∃ x, d' = d.loaded env x := by
  unfold load at h
  split at h
  case h_2 => cases h
  case h_3 => cases h
  split at h
  case h_2 => cases h
  case h_1 sample _ =>
  split_ifs at h with hidx
  cases h
  refine ⟨sample d.offset k idx, ?_⟩
  unfold reset
  split_ifs with hc
  · obtain ⟨h1, h2, h3, h4⟩ := ht hc
    simp only [push, loaded, h1, h2, h3, h4]
  · rfl

theorem container_ok (h : d.container env idx = .ok d') : d'.stack = d.stack ∧ d'.r = d.r ∧ d'.cnest ≠ 0 := by
  unfold container at h
  split at h
  case h_2 => cases h
  case h_3 => cases h
  split at h
  case h_2 => cases h
  case h_3 => cases h
  cases h
  exact ⟨rfl, rfl, succ_ne_zero _⟩

theorem toOption_eq_some {x : Except Outcome (Regs E)} (h : x.toOption = some d) : x = .ok d := by
  cases x with
  | ok a => exact congrArg _ (some.inj h)
  | error o => cases h

theorem field_wf : ∀ {path : List Name} {name : Name} {tcp : Option Ty} {is : List Instr} {t : Kind},
    assembleField name path tcp = some (is, t) → ∀ i ∈ is, i.WF
  | path, name, none, is, t, h => by cases path <;> cases h
  | path, name, some (.simple _), is, t, h => by cases path <;> cases h
  | path, name, some (.enumeration _), is, t, h => by cases path <;> cases h
  | [], name, some (.struct members), is, t, h => by
    obtain ⟨m, -, h⟩ := bind_eq_some_iff.1 h
    obtain ⟨k, -, h⟩ := map_eq_some_iff.1 h
    cases h
    intro i hi
    cases mem_singleton.1 hi
    trivial
  | next :: path, name, some (.struct members), is, t, h => by
    obtain ⟨m, -, h⟩ := bind_eq_some_iff.1 h
    obtain ⟨is', h', h⟩ := map_eq_some_iff.1 h
    cases h
    intro i hi
    rcases mem_cons.1 hi with rfl | hi
    · trivial
    · exact field_wf (show _ = some (is'.1, is'.2) from h') i hi

theorem field_pushes : ∀ {path : List Name} {name : Name} {tcp : Option Ty} {is : List Instr} {t : Kind}
    {d d' : Regs E},
    assembleField name path tcp = some (is, t) → (d.cnest = 0 → d.Top env) → execAll env is d = some d' →
      ∃ x, d' = d.loaded env x
  | path, name, none, is, t, d, d', h, _, _ => by cases path <;> cases h
  | path, name, some (.simple _), is, t, d, d', h, _, _ => by cases path <;> cases h
  | path, name, some (.enumeration _), is, t, d, d', h, _, _ => by cases path <;> cases h
  | [], name, some (.struct members), is, t, d, d', h, ht, hx => by
    obtain ⟨m, -, h⟩ := bind_eq_some_iff.1 h
    obtain ⟨k, -, h⟩ := map_eq_some_iff.1 h
    cases h
    rw [execAll_singleton] at hx
    exact load_ok ht (toOption_eq_some (exec_eq_some hx))
  | next :: path, name, some (.struct members), is, t, d, d', h, ht, hx => by
    obtain ⟨m, -, h⟩ := bind_eq_some_iff.1 h
    obtain ⟨is', h', h⟩ := map_eq_some_iff.1 h
    cases h
    obtain ⟨d1, h1, h2⟩ := bind_eq_some_iff.1 hx
    obtain ⟨hstack, hr, hcn⟩ := container_ok (toOption_eq_some (exec_eq_some h1))
    obtain ⟨x, rfl⟩ := field_pushes (show _ = some (is'.1, is'.2) from h') (fun h0 => absurd h0 hcn) h2
    exact ⟨x, by simp only [loaded, hstack, hr]⟩

theorem field_runs : ∀ {path : List Name} {name : Name} {tcp : Option Ty} {is : List Instr} {t : Kind} {d : Regs E},
    assembleField name path tcp = some (is, t) → d.ctp = tcp → d.second = false → d.stack.length < maxStack →
      (∀ i ∈ is, i.Fine env) → ∃ d', execAll env is d = some d'
  | path, name, none, is, t, d, h, _, _, _, _ => by cases path <;> cases h
  | path, name, some (.simple _), is, t, d, h, _, _, _, _ => by cases path <;> cases h
  | path, name, some (.enumeration _), is, t, d, h, _, _, _, _ => by cases path <;> cases h
  | [], name, some (.struct members), is, t, d, h, hctp, hsec, hs, hf => by
    obtain ⟨m, hm, h⟩ := bind_eq_some_iff.1 h
    obtain ⟨k, -, h⟩ := map_eq_some_iff.1 h
    cases h
    obtain ⟨l, hl, hmem⟩ := memberAt_some (show _ = some (m.1, m.2) from hm)
    have hlen : m.1 % 65536 < members.length := by
      have hidx := (List.getElem?_eq_some_iff.1 hmem).1
      omega
    rw [execAll_singleton, Instr.exec, if_neg (Nat.not_le.2 hs)]
    simp only [Instr.perform, load, hctp, Env.sample, hsec, Bool.false_eq_true, if_false, if_pos hlen]
    exact ⟨_, rfl⟩
  | next :: path, name, some (.struct members), is, t, d, h, hctp, hsec, hs, hf => by
    obtain ⟨m, hm, h⟩ := bind_eq_some_iff.1 h
    obtain ⟨is', h', h⟩ := map_eq_some_iff.1 h
    cases h
    obtain ⟨l, hl, hmem⟩ := memberAt_some (show _ = some (m.1, m.2) from hm)
    rw [Nat.zero_add] at hl
    have hfine : m.1 < 65536 := hf _ (mem_cons_self ..)
    have hcont : Instr.exec env d (.cref m.1) =
        some { d with ctp := some m.2, cnest := d.cnest + 1, offset := d.offset ++ [m.1] } := by
      rw [Instr.exec, if_neg (Nat.not_le.2 hs)]
      simp only [Instr.perform, mod_eq_of_lt hfine, container, hctp, Env.sample, hsec, Bool.false_eq_true,
        if_false, hl ▸ hmem]
      rfl
    simp only [execAll, hcont, bind_some]
    exact field_runs (show _ = some (is'.1, is'.2) from h') rfl hsec hs (forall_mem_cons.1 hf).2

theorem Loads.operand {o : Operand} (h : o.assemble env.ts = some (is, t)) : Loads env 1 is := by
  cases o with
  | param p =>
    cases h
    exact .param p
  | field name path =>
    refine ⟨field_wf h, ?_, ?_⟩
    · intro d d' ht hx
      obtain ⟨x, rfl⟩ := field_pushes h (fun _ => ht) hx
      obtain ⟨h1, h2, h3, h4⟩ := ht
      exact ⟨[x], rfl, by simp only [loaded, h1, h2, h3, h4, singleton_append]⟩
    · intro d ht hs hf
      exact field_runs h ht.ctp ht.second (by omega) hf

/-! ## Predicates -/

variable {is1 is2 is : List Instr} {t1 t2 t : Kind}

theorem Loads.unify (h1 : Loads env 1 is1) (h2 : Loads env 1 is2)
    (h : assembleUnify t1 is1 t2 is2 ts1 ts2 = .ok (is, t)) : Loads env 2 is := by
  unfold assembleUnify at h
  split_ifs at h
  · cases h
    exact h1.append h2
  · obtain ⟨k, -, h⟩ := bind_ok h
    cases h
    exact h1.retype.append h2
  · obtain ⟨k, -, h⟩ := bind_ok h
    cases h
    exact h1.append h2.retype
  · cases h
    rw [append_cons]
    exact (h1.conv (some .c2s)).append h2
  · cases h
    exact h1.append (h2.conv (some .c2s))
  · cases h
    exact h1.append (h2.conv _)
  · cases h
    rw [append_cons]
    exact (h1.conv _).append h2
  · cases h
    exact h1.append h2

theorem Loads.lower (h1 : Loads env 1 is1) (h2 : Loads env 1 is2)
    (h : assembleLower t1 is1 t2 is2 ts0 ts1 = .ok (is, t)) : Loads env 2 is := by
  unfold assembleLower at h
  split_ifs at h
  · cases h
    exact h1.retype.append h2
  · obtain ⟨k, -, h⟩ := bind_ok h
    cases h
    exact h1.append h2.retype
  · cases h
    exact h1.append (h2.conv _)
  · cases h
    rw [append_cons]
    exact (h1.conv _).append h2
  · cases h
    exact h1.append h2

theorem Loads.upper (h1 : Loads env k is1) (h2 : Loads env 1 is2)
    (h : assembleUpper is1 t t2 is2 ts0 ts2 = .ok is) : Loads env (k + 1) is := by
  unfold assembleUpper at h
  split_ifs at h
  · obtain ⟨k, -, h⟩ := bind_ok h
    cases h
    exact h1.append h2.retype
  · cases h
    exact h1.append (h2.conv _)
  · cases h
    exact h1.append h2

theorem orFault_ok {x : Option α} {a : α} (h : orFault x = .ok a) : x = some a := by
  cases x with
  | none => cases h
  | some b => exact congrArg _ (Except.ok.inj h)

inductive Shape (env : Env E) : Pred → List Instr → Prop
  | cmp {a b : Operand} {rel : RelOp} {js : List Instr} (k : Cmp) :
    rel ≠ .like → Loads env 2 js → Shape env (.comp a rel b) (js ++ [.op (.cmp k)])
  | like {a b : Operand} {js : List Instr} : Loads env 2 js → Shape env (.comp a .like b) (js ++ [.op .like])
  | btw {x a b : Operand} {negate : Bool} {js : List Instr} (k : Btw) :
    Loads env 3 js → Shape env (.between x negate a b) (js ++ [.op (.btw k)])

theorem Pred.assemble_shape (h : p.assemble env.ts = .ok is) : Shape env p is := by
  cases p with
  | comp a rel b =>
    obtain ⟨⟨is1, t1⟩, h1, h⟩ := bind_ok h
    obtain ⟨⟨is2, t2⟩, h2, h⟩ := bind_ok h
    obtain ⟨ts1, -, h⟩ := bind_ok h
    obtain ⟨ts2, -, h⟩ := bind_ok h
    obtain ⟨⟨js, t⟩, h3, h⟩ := bind_ok h
    have hl := (Loads.operand (orFault_ok h1)).unify (Loads.operand (orFault_ok h2)) h3
    split_ifs at h with hrel
    · cases h
      subst hrel
      exact .like hl
    · obtain ⟨k, -, h⟩ := bind_ok h
      cases h
      exact .cmp k hrel hl
  | between x negate a b =>
    obtain ⟨⟨is0, t⟩, h0, h⟩ := bind_ok h
    obtain ⟨ts0, -, h⟩ := bind_ok h
    obtain ⟨⟨is1, tr1⟩, h1, h⟩ := bind_ok h
    obtain ⟨ts1, -, h⟩ := bind_ok h
    obtain ⟨⟨js, t'⟩, h2, h⟩ := bind_ok h
    obtain ⟨⟨is2, tr2⟩, h3, h⟩ := bind_ok h
    obtain ⟨ts2, -, h⟩ := bind_ok h
    obtain ⟨ks, h4, h⟩ := bind_ok h
    obtain ⟨k, -, h⟩ := bind_ok h
    cases h
    have hl := (Loads.operand (orFault_ok h0)).lower (Loads.operand (orFault_ok h1)) h2
    exact .btw k (hl.upper (Loads.operand (orFault_ok h3)) h4)

end Qeo.Sql
