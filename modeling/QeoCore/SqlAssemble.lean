import Mathlib.Data.List.Induction
import QeoCore.SqlGrammar
/-!
# SqlAssemble — the instructions of a predicate, and that the compiler emits them

`Pred.assemble` lists the instructions of a predicate for a type.  What `factor` writes for a predicate is their
encoding, behind the code that was there before (`predicate_ok`).
-/
namespace Qeo.Sql

open List Option Nat Gen

variable {ts : TypeSupport}

inductive Instr
  | lci (b : Nat)
  | lc (k : Size) (bytes : List Nat)
  | str (text : List Nat)
  | ld (k : Size) (idx : Nat)
  | lp (k : Size) (idx : Nat)
  | op (o : Op)
  | cref (idx : Nat)
  /-- O_NOP, with the operand of the opcode it stands for. -/
  | nop (arg : List Nat)

open Instr

def wordBytes (i : Nat) : List Nat := [i / 256 % 256, i % 256]

def Instr.encode : Instr → List Nat
  | .lci b => [b]
  | .lc k bytes => (Op.lc k).code :: bytes
  | .str text => (Op.lc .s).code :: (text ++ [0])
  | .ld k idx => (Op.ld k).code :: wordBytes idx
  | .lp k idx => [(Op.lp k).code, idx % 256]
  | .op o => [o.code]
  | .cref idx => Op.cref.code :: wordBytes idx
  | .nop arg => Sql.nop :: arg

def encode (is : List Instr) : List Nat := is.flatMap Instr.encode

theorem encode_append (is js : List Instr) : encode (is ++ js) = encode is ++ encode js := flatMap_append

theorem encode_cons (i : Instr) (is : List Instr) : encode (i :: is) = i.encode ++ encode is := flatMap_cons

theorem encode_singleton (i : Instr) : encode [i] = i.encode := by exact append_nil _

/-! ## Operands -/

def Instr.ofInt (i : Int) : Instr × Kind :=
  if -64 ≤ i ∧ i ≤ 63 then (.lci (i % 128).toNat, .simple .long)
  else if 0 ≤ i ∧ i ≤ 255 then (.lc .bu (bytesOf i 1), .simple .ulong)
  else if -128 ≤ i ∧ i < 0 then (.lc .bs (bytesOf i 1), .simple .long)
  else if 0 ≤ i ∧ i ≤ 0xffff then (.lc .su (bytesOf i 2), .simple .ulong)
  else if -32768 ≤ i ∧ i < 0 then (.lc .ss (bytesOf i 2), .simple .long)
  else if 0 ≤ i ∧ i ≤ 0xffffffff then (.lc .wu (bytesOf i 4), .simple .ulong)
  else if -2147483648 ≤ i ∧ i < 0 then (.lc .ws (bytesOf i 4), .simple .long)
  else (.lc .l (bytesOf i 8).reverse, .simple .longlong)

def Param.assemble : Param → Instr × Kind
  | .int i => ofInt i
  | .char c => ((ofInt (charValue c)).1, .simple .char)
  | .float bytes => (.lc .d (bytes.toList.map (·.val)), .simple .double)
  | .string s => (.str ((s.takeWhile (fun c => c % 256 ≠ 0)).map (· % 256)), .simple .string)
  | .par index => (.lp .s index, .par)

def assembleField : Name → List Name → Option Ty → Option (List Instr × Kind)
  | name, [], some (.struct members) =>
    (memberAt name 0 members).bind fun m => m.2.kind.load.map fun k => ([.ld k m.1], m.2.kind)
  | name, inner :: path, some (.struct members) =>
    (memberAt name 0 members).bind fun m =>
      (assembleField inner path (some m.2)).map fun is => (.cref m.1 :: is.1, is.2)
  | _, _, _ => none

def Operand.assemble (ts : TypeSupport) : Operand → Option (List Instr × Kind)
  | .field name path => assembleField name path ts.cdr
  | .param p => some ([p.assemble.1], p.assemble.2)

/-! ## Predicates -/

def Instr.ofConv : Option Conv → Instr
  | some c => .op (.conv c)
  | none => .nop []

def retype (k : Option Size) : List Instr → List Instr
  | [.lp _ idx] =>
    match k with
    | some k => [.lp k idx]
    | none => [.nop [idx % 256]]
  | is => is

def assembleUnify (t1 : Kind) (is1 : List Instr) (t2 : Kind) (is2 : List Instr) (ts1 ts2 : Nat) :
    Except ParseError (List Instr × Kind) :=
  if t1 = .par then
    if t2 = .par ∨ t2.isString then .ok (is1 ++ is2, .simple .string)
    else do return (retype (← lparType t2) is1 ++ is2, t2)
  else if t2 = .par then do return (is1 ++ retype (← lparType t1) is2, t1)
  else if t2.isString ∧ t1.isChar then .ok (is1 ++ .op (.conv .c2s) :: is2, t2)
  else if t1.isString ∧ t2.isChar then .ok (is1 ++ (is2 ++ [.op (.conv .c2s)]), t1)
  else if ts2 < ts1 then .ok (is1 ++ (is2 ++ [.ofConv (convertn t2 t1)]), t1)
  else if ts1 < ts2 then .ok (is1 ++ .ofConv (convertn t1 t2) :: is2, t2)
  else .ok (is1 ++ is2, t1)

def assembleLower (t : Kind) (is : List Instr) (tr1 : Kind) (is1 : List Instr) (ts0 ts1 : Nat) :
    Except ParseError (List Instr × Kind) :=
  if tr1 = .par ∧ t = .par then do
    return (retype (← lparType (.simple .string)) is ++ is1, .simple .string)
  else if tr1 = .par then do return (is ++ retype (← lparType t) is1, t)
  else if ts1 < ts0 then .ok (is ++ (is1 ++ [.ofConv (convertn tr1 t)]), t)
  else if ts0 < ts1 then .ok (is ++ .ofConv (convertn t tr1) :: is1, tr1)
  else .ok (is ++ is1, t)

def assembleUpper (is : List Instr) (t tr2 : Kind) (is2 : List Instr) (ts0 ts2 : Nat) :
    Except ParseError (List Instr) :=
  if tr2 = .par then do return is ++ retype (← lparType t) is2
  else if ts2 < ts0 then .ok (is ++ (is2 ++ [.ofConv (convertn tr2 t)]))
  else .ok (is ++ is2)

def orFault {α : Type} : Option α → Except ParseError α
  | some a => .ok a
  | none => .error .fault

def Pred.assemble (ts : TypeSupport) : Pred → Except ParseError (List Instr)
  | .comp a rel b => do
    let (is1, t1) ← orFault (a.assemble ts)
    let (is2, t2) ← orFault (b.assemble ts)
    let (is, t) ← assembleUnify t1 is1 t2 is2 (← typeSize t1) (← typeSize t2)
    if rel = .like then return is ++ [.op .like]
    else return is ++ [.op (.cmp (← compareOp t))]
  | .between x _ a b => do
    let (is0, t) ← orFault (x.assemble ts)
    let ts0 ← typeSize t
    let (is1, tr1) ← orFault (a.assemble ts)
    let (is, t) ← assembleLower t is0 tr1 is1 ts0 (← typeSize tr1)
    let (is2, tr2) ← orFault (b.assemble ts)
    let is ← assembleUpper is t tr2 is2 ts0 (← typeSize tr2)
    return is ++ [.op (.btw (← betweenOp t))]

open Sql.Pred

def Pred.condition : Pred → Cond
  | .comp _ rel _ => rel.condition
  | .between _ negate _ _ => if negate then .t else .f

/-! ## What the compiler writes -/

theorem bind_ok {α β : Type} {x : Except ParseError α} {f : α → Except ParseError β} {b : β} (h : x >>= f = .ok b) :
    ∃ a, x = .ok a ∧ f a = .ok b := by
  cases x with
  | ok a => exact ⟨a, rfl, h⟩
  | error e => cases h

theorem ok_bind {α β : Type} (a : α) (f : α → Except ParseError β) : (.ok a >>= f) = f a := rfl

section
variable (g : Gen)

@[simp] theorem Gen.emit_code (c : Nat) : (g.emit c).code = g.code ++ [c % 256] := rfl

@[simp] theorem Gen.emit_npars (c : Nat) : (g.emit c).npars = g.npars := rfl

@[simp] theorem Gen.emit_toks (c : Nat) : (g.emit c).toks = g.toks := rfl

@[simp] theorem Gen.op_code (o : Op) : (g.op o).code = g.code ++ [o.code] := by
  rw [op, emit_code, mod_eq_of_lt o.code_bounds.2]

@[simp] theorem Gen.op_npars (o : Op) : (g.op o).npars = g.npars := rfl

@[simp] theorem Gen.op_toks (o : Op) : (g.op o).toks = g.toks := rfl

@[simp] theorem Gen.emits_code (i : Nat) : (g.emits i).code = g.code ++ wordBytes i := by
  simp only [emits, emit_code, append_assoc]; rfl

@[simp] theorem Gen.emits_npars (i : Nat) : (g.emits i).npars = g.npars := rfl

@[simp] theorem Gen.emits_toks (i : Nat) : (g.emits i).toks = g.toks := rfl

end

theorem Gen.emitAll_eq : ∀ (bs : List Nat) (g : Gen), g.emitAll bs = { g with code := g.code ++ bs.map (· % 256) }
  | [], g => by simp [emitAll]
  | b :: bs, g => by
    rw [emitAll, emitAll_eq bs]
    simp [emit]

theorem bytesOf_lt (i : Int) : ∀ k, ∀ b ∈ bytesOf i k, b % 256 = b
  | 0, _, h => by cases h
  | k + 1, b, h => by
    rcases mem_cons.1 h with rfl | h
    · omega
    · exact bytesOf_lt i k b h

theorem map_bytes {bs : List Nat} (h : ∀ b ∈ bs, b % 256 = b) : bs.map (· % 256) = bs := by
  rw [map_congr_left h]; exact map_id' bs

theorem shiftUp_set (A : List Nat) (x : Nat) : ∀ (B : List Nat) (c : Nat) (post : List Nat),
    (shiftUp A.length B.length (A ++ (B ++ c :: post))).set A.length x = A ++ x :: (B ++ post) := by
  intro B
  induction B using List.reverseRecOn with
  | nil => simp [shiftUp]
  | append_singleton B b ih =>
    intro c post
    have hstep : shiftUp A.length (B ++ [b]).length (A ++ (B ++ [b] ++ c :: post))
        = shiftUp A.length B.length (A ++ (B ++ b :: b :: post)) := by
      rw [length_append, length_singleton, shiftUp]
      simp [Nat.add_assoc]
    rw [hstep, ih]
    simp

theorem Gen.insBefore_code {g : Gen} (h : g.code = A ++ B) (x : Nat) :
    (g.insBefore A.length x).code = A ++ x :: B := by
  have hlen : (g.emit nop).curPc - A.length = B.length + 1 := by
    simp only [Gen.curPc, emit_code, h, length_append, length_singleton]; omega
  -- the first round writes behind the end
  have hend : (g.emit nop).code.set (A.length + B.length + 1) ((g.emit nop).code.getD (A.length + B.length) 0)
      = A ++ (B ++ [nop % 256]) := by
    rw [emit_code, h, append_assoc]
    exact set_eq_of_length_le (by simp only [length_append, length_singleton]; omega)
  simp only [insBefore, hlen, shiftUp, hend]
  rw [shiftUp_set A x B, append_nil]

theorem Gen.setAtPc_code {g : Gen} (h : g.code = A ++ a :: B) (x : Nat) :
    (g.setAtPc A.length x).code = A ++ x :: B := by
  simp [setAtPc, h]

/-! ## Operands -/

def Instr.needs : Instr → Nat
  | .lp _ idx => idx + 1
  | _ => 0

structure Emitted (g g' : Gen) (is : List Instr) : Prop where
  code : g'.code = g.code ++ encode is
  npars : g.npars ≤ g'.npars
  needs : ∀ i ∈ is, i.needs ≤ g'.npars

theorem Gen.constInt_eq (g : Gen) (i : Int) :
    g.constInt i = ({ g with code := g.code ++ (ofInt i).1.encode }, (ofInt i).2) := by
  have hb := fun k => map_bytes (bytesOf_lt i k)
  have hr : (bytesOf i 8).reverse.map (· % 256) = (bytesOf i 8).reverse := by rw [map_reverse, hb]
  unfold constInt ofInt
  split_ifs
  · have : (i % 128).toNat % 256 = (i % 128).toNat := by omega
    simp [emit, Instr.encode, this]
  all_goals simp only [emitAll_eq, hb, hr, op_code, Instr.encode, append_assoc, singleton_append]; rfl

theorem Instr.needs_ofInt (i : Int) : (ofInt i).1.needs = 0 := by
  unfold ofInt
  split_ifs <;> rfl

theorem Gen.parameter_ok (g : Gen) (p : Param) :
    Emitted g (g.parameter p).1 [p.assemble.1] ∧ (g.parameter p).2 = p.assemble.2 ∧
      (g.parameter p).1.toks = g.toks := by
  cases p with
  | int i | char c =>
    simp only [parameter, Param.assemble, constInt_eq]
    refine ⟨⟨by rw [encode_singleton], Nat.le_refl _, ?_⟩, trivial, trivial⟩
    simp [needs_ofInt]
  | float bytes =>
    have hb : (bytes.toList.map (·.val)).map (· % 256) = bytes.toList.map (·.val) := by
      apply map_bytes
      intro b hb
      obtain ⟨c, -, rfl⟩ := mem_map.1 hb
      exact mod_eq_of_lt c.isLt
    refine ⟨⟨?_, by simp [parameter, constFloat, emitAll_eq], by simp [Param.assemble, needs]⟩, rfl, ?_⟩
    · simp [parameter, constFloat, emitAll_eq, hb, encode_singleton, Param.assemble, Instr.encode, op_code]
    · simp [parameter, constFloat, emitAll_eq]
  | string s =>
    refine ⟨⟨?_, by simp [parameter, constString, emitAll_eq], by simp [Param.assemble, needs]⟩, rfl, ?_⟩
    · simp [parameter, constString, emitAll_eq, encode_singleton, Param.assemble, Instr.encode, op_code]
    · simp [parameter, constString, emitAll_eq]
  | par index =>
    have hn : index + 1 ≤ (g.parameter (.par index)).1.npars := Nat.le_max_right _ _
    refine ⟨⟨?_, Nat.le_max_left _ _, by simpa [Param.assemble, needs] using hn⟩, rfl, rfl⟩
    simp [parameter, emit_code, op_code, encode_singleton, Param.assemble, Instr.encode]

theorem Gen.identifier_ok : ∀ {toks : List Token} {tcp : Option Ty} {g g' : Gen} {t : Kind},
    identifier true toks tcp g = .ok (g', t) →
      ∃ name path is, toks = .id name :: (pathTokens path ++ g'.toks.tail) ∧
        assembleField name path tcp = some (is, t) ∧ Emitted g g' is
  | toks, tcp, g, g', t, h => by
    unfold identifier at h
    split at h
    case h_2 => cases h
    case h_1 _ _ name rest =>
    obtain ⟨found, hf, h⟩ := bind_ok h
    unfold fieldLookup at hf
    split at hf
    case h_2 => cases hf
    case h_1 _ members _ =>
    cases hf
    split at h
    · -- no such member: in a structure there are no constants to look for
      cases h
    · rename_i ofs inner hm
      split at h
      case h_2 => cases h
      case h_1 toks =>
      split at h
      case h_2 => cases h
      case h_1 =>
      obtain ⟨inner, path, is, htoks, has, hem⟩ := identifier_ok h
      refine ⟨name, inner :: path, .cref ofs :: is, ?_, ?_, ?_, hem.npars, ?_⟩
      · simp [htoks, pathTokens]
      · simp [assembleField, hm, has]
      · rw [hem.code, encode_cons]
        simp [Instr.encode]
      intro i hi
      rcases mem_cons.1 hi with rfl | hi
      · exact zero_le _
      · exact hem.needs i hi
    rename_i ofs ty _ hm
    split at h
    case h_2 => cases h
    case h_1 k hk =>
    cases h
    refine ⟨name, [], [.ld k ofs], rfl, ?_, ?_, Nat.le_refl _, by simp [needs]⟩
    · simp [assembleField, hm, hk]
    · simp [encode_singleton, Instr.encode]

theorem Gen.idOrParameter_ok (h : g.idOrParameter ts = .ok (g', t)) :
    ∃ o is, g.toks = o.tokens ++ g'.next.toks ∧ Operand.assemble ts o = some (is, t) ∧ Emitted g g' is := by
  unfold idOrParameter at h
  split at h
  · rename_i name rest htoks
    obtain ⟨name, path, is, htk, has, hem⟩ := identifier_ok h
    exact ⟨.field name path, is, htoks.trans htk, has, hem⟩
  · rename_i p rest htoks
    obtain ⟨hem, hk, htk⟩ := g.parameter_ok p
    have hp := Except.ok.inj h
    rw [hp] at hem hk htk
    refine ⟨.param p, [p.assemble.1], ?_, ?_, hem⟩
    · rw [show g'.next.toks = rest by rw [Gen.next, show g'.toks = g.toks from htk, htoks]; rfl, htoks]
      rfl
    · simp only [Operand.assemble, ← hk]
  · cases h

/-! ## Predicates -/

theorem assembleField_ne_par : ∀ {path : List Name} {name : Name} {tcp : Option Ty} {is : List Instr} {t : Kind},
    assembleField name path tcp = some (is, t) → t ≠ .par
  | [], name, some (.struct members), is, t, h => by
    obtain ⟨m, -, h⟩ := bind_eq_some_iff.1 h
    obtain ⟨k, -, h⟩ := map_eq_some_iff.1 h
    cases h
    cases m.2 <;> exact nofun
  | inner :: path, name, some (.struct members), is, t, h => by
    obtain ⟨m, -, h⟩ := bind_eq_some_iff.1 h
    obtain ⟨is', h', h⟩ := map_eq_some_iff.1 h
    cases h
    exact assembleField_ne_par (show _ = some (is'.1, is'.2) from h')
  | [], _, none, _, _, h | [], _, some (.simple _), _, _, h | [], _, some (.enumeration _), _, _, h => by cases h
  | _ :: _, _, none, _, _, h | _ :: _, _, some (.simple _), _, _, h
  | _ :: _, _, some (.enumeration _), _, _, h => by cases h

theorem Operand.assemble_par {o : Operand} (h : o.assemble ts = some (is, .par)) : ∃ idx, is = [.lp .s idx] := by
  cases o with
  | field name path => exact absurd rfl (assembleField_ne_par h)
  | param p =>
    obtain ⟨rfl, hk⟩ := Prod.mk.inj (Option.some.inj h)
    cases p with
    | par index => exact ⟨index, rfl⟩
    | int i =>
      simp only [Param.assemble, ofInt] at hk
      split_ifs at hk
    | char c => cases hk
    | float b => cases hk
    | string s => cases hk

def Within (n : Nat) (is : List Instr) : Prop := ∀ i ∈ is, i.needs ≤ n

theorem within_append (hi : Within n is) (hj : Within n js) : Within n (is ++ js) := by
  intro i h
  rcases mem_append.1 h with h | h
  · exact hi i h
  · exact hj i h

theorem within_retype (h : Within n [lp k' idx]) : Within n (retype k [.lp k' idx]) := by
  intro i hi
  cases k with
  | none =>
    obtain rfl := mem_singleton.1 hi
    exact zero_le _
  | some k =>
    obtain rfl := mem_singleton.1 hi
    exact h (.lp k' idx) (mem_singleton.2 rfl)

structure Written (pre : List Nat) (toks : List Token) (n : Nat) (is : List Instr) (g : Gen) : Prop where
  code : g.code = pre ++ encode is
  toks : g.toks = toks
  npars : g.npars = n
  needs : Within n is

variable {pre : List Nat} {toks : List Token} {n : Nat} {g : Gen}

theorem Written.retype {is js : List Instr} {k' : Size} {idx : Nat}
    (h : Written pre toks n (is ++ ([.lp k' idx] ++ js)) g) (k : Option Size) :
    Written pre toks n (is ++ (Sql.retype k [.lp k' idx] ++ js))
    (g.setAtPc (pre ++ encode is).length (lparByte k)) := by
  have hc : g.code = (pre ++ encode is) ++ (Op.lp k').code :: ([idx % 256] ++ encode js) := by
    rw [h.code, encode_append, encode_append, encode_singleton, Instr.encode]
    simp
  refine ⟨?_, h.toks, h.npars, ?_⟩
  · rw [setAtPc_code hc]
    cases k <;>
      simp [encode_append, Sql.retype, encode_cons, Instr.encode, lparByte]
  · apply within_append (forall_mem_append.1 h.needs).1
    exact within_append (within_retype fun i hi => h.needs i (mem_append_right _ (mem_append_left _ hi)))
      fun i hi => h.needs i (mem_append_right _ (mem_append_right _ hi))

theorem Written.retype_first (h : Written pre toks n ([.lp k' idx] ++ js) g) (k : Option Size) :
    Written pre toks n (Sql.retype k [.lp k' idx] ++ js) (g.setAtPc pre.length (lparByte k)) := by
  have h' := @Written.retype pre toks n g [] js k' idx h k
  rwa [show encode [] = [] from rfl, append_nil] at h'

theorem Written.retype_last (h : Written pre toks n (is ++ [.lp k' idx]) g) (k : Option Size) :
    Written pre toks n (is ++ Sql.retype k [.lp k' idx]) (g.setAtPc (pre ++ encode is).length (lparByte k)) := by
  have h' := @Written.retype pre toks n g is [] k' idx (by rwa [append_nil]) k
  rwa [append_nil] at h'

theorem Written.emit (h : Written pre toks n is g) (i : Instr) (hi : i.encode = [b])
    (hb : b < 256) (hn : i.needs = 0) : Written pre toks n (is ++ [i]) (g.emit b) := by
  refine ⟨?_, h.toks, h.npars, within_append h.needs ?_⟩
  · rw [emit_code, h.code, encode_append, encode_singleton, hi, mod_eq_of_lt hb, append_assoc]
  · intro j hj
    rw [mem_singleton.1 hj, hn]
    exact zero_le _

theorem Written.insBefore (h : Written pre toks n (is ++ js) g) (i : Instr) (hi : i.encode = [b]) (hn : i.needs = 0) :
    Written pre toks n (is ++ i :: js) (g.insBefore (pre ++ encode is).length b) := by
  refine ⟨?_, h.toks, h.npars, ?_⟩
  · rw [insBefore_code (A := pre ++ encode is) (B := encode js) (by rw [h.code, encode_append, append_assoc]),
      encode_append, encode_cons, hi, append_assoc]
    rfl
  apply within_append (forall_mem_append.1 h.needs).1
  intro j hj
  rcases mem_cons.1 hj with rfl | hj
  · rw [hn]; exact zero_le _
  · exact h.needs j (mem_append_right _ hj)

theorem encode_ofConv (c : Option Conv) :
    (ofConv c).encode = [convByte c] ∧ convByte c < 256 ∧ (ofConv c).needs = 0 := by
  cases c with
  | none => exact ⟨rfl, by decide, rfl⟩
  | some c => exact ⟨rfl, (Op.conv c).code_bounds.2, rfl⟩

theorem Written.emit_conv (h : Written pre toks n (is ++ js) g) (c : Option Conv) :
    Written pre toks n (is ++ (js ++ [ofConv c])) (g.emit (convByte c)) := by
  obtain ⟨he, hb, hn⟩ := encode_ofConv c
  rw [← append_assoc]
  exact h.emit _ he hb hn

theorem Written.insBefore_conv (h : Written pre toks n (is ++ js) g) (c : Option Conv) :
    Written pre toks n (is ++ ofConv c :: js) (g.insBefore (pre ++ encode is).length (convByte c)) :=
  h.insBefore _ (encode_ofConv c).1 (encode_ofConv c).2.2

variable {is1 is2 : List Instr} {t1 t2 t : Kind} {g' : Gen}

def ParAlone (t : Kind) (is : List Instr) : Prop := t = .par → ∃ idx, is = [.lp .s idx]

section
variable (hw : Written pre toks n (is1 ++ is2) g)
include hw

theorem Gen.unify_ok (hp1 : ParAlone t1 is1) (hp2 : ParAlone t2 is2)
    (h : g.unify t1 pre.length t2 (pre ++ encode is1).length ts1 ts2 = .ok (g', t)) :
    ∃ is, assembleUnify t1 is1 t2 is2 ts1 ts2 = .ok (is, t) ∧ Written pre toks n is g' := by
  unfold unify at h
  unfold assembleUnify
  split_ifs at h ⊢ with h1 h2 h3 h4 h5 h6 h7
  · cases h
    exact ⟨_, rfl, hw⟩
  · obtain ⟨k, hk, h⟩ := bind_ok h
    cases h
    obtain ⟨idx, rfl⟩ := hp1 h1
    exact ⟨_, by rw [hk]; rfl, hw.retype_first k⟩
  · obtain ⟨k, hk, h⟩ := bind_ok h
    cases h
    obtain ⟨idx, rfl⟩ := hp2 h3
    exact ⟨_, by rw [hk]; rfl, hw.retype_last k⟩
  · cases h
    exact ⟨_, rfl, hw.insBefore_conv (some .c2s)⟩
  · cases h
    exact ⟨_, rfl, hw.emit_conv (some .c2s)⟩
  · cases h
    exact ⟨_, rfl, hw.emit_conv _⟩
  · cases h
    exact ⟨_, rfl, hw.insBefore_conv _⟩
  · cases h
    exact ⟨_, rfl, hw⟩

theorem Gen.unifyLower_ok (hp1 : ParAlone t1 is1) (hp2 : ParAlone t2 is2)
    (h : g.unifyLower t1 pre.length t2 (pre ++ encode is1).length ts0 ts1 = .ok (g', t)) :
    ∃ is, assembleLower t1 is1 t2 is2 ts0 ts1 = .ok (is, t) ∧ Written pre toks n is g' := by
  unfold unifyLower at h
  unfold assembleLower
  split_ifs at h ⊢ with h1 h2 h3 h4
  · obtain ⟨k, hk, h⟩ := bind_ok h
    cases h
    obtain ⟨idx, rfl⟩ := hp1 h1.2
    exact ⟨_, by rw [hk]; rfl, hw.retype_first k⟩
  · obtain ⟨k, hk, h⟩ := bind_ok h
    cases h
    obtain ⟨idx, rfl⟩ := hp2 h2
    exact ⟨_, by rw [hk]; rfl, hw.retype_last k⟩
  · cases h
    exact ⟨_, rfl, hw.emit_conv _⟩
  · cases h
    exact ⟨_, rfl, hw.insBefore_conv _⟩
  · cases h
    exact ⟨_, rfl, hw⟩

theorem Gen.unifyUpper_ok (hp2 : ParAlone t2 is2)
    (h : g.unifyUpper t t2 (pre ++ encode is1).length ts0 ts2 = .ok g') :
    ∃ is, assembleUpper is1 t t2 is2 ts0 ts2 = .ok is ∧ Written pre toks n is g' := by
  unfold unifyUpper at h
  unfold assembleUpper
  split_ifs at h ⊢ with h1 h2
  · obtain ⟨k, hk, h⟩ := bind_ok h
    cases h
    obtain ⟨idx, rfl⟩ := hp2 h1
    exact ⟨_, by rw [hk]; rfl, hw.retype_last k⟩
  · cases h
    exact ⟨_, rfl, hw.emit_conv _⟩
  · cases h
    exact ⟨_, rfl, hw⟩

end

section
variable (hw : Written pre toks n is g)
include hw

theorem Written.operand (h : g.idOrParameter ts = .ok (g', t)) :
    ∃ o js, toks = o.tokens ++ g'.next.toks ∧ Operand.assemble ts o = some (js, t) ∧ ParAlone t js ∧ n ≤ g'.npars ∧
      Written pre g'.toks g'.npars (is ++ js) g' := by
  obtain ⟨o, js, htk, has, hem⟩ := idOrParameter_ok h
  refine ⟨o, js, hw.toks.symm.trans htk, has, ?_, hw.npars ▸ hem.npars, ?_, rfl, rfl, ?_⟩
  · rintro rfl
    exact Operand.assemble_par has
  · rw [hem.code, hw.code, encode_append, append_assoc]
  · apply within_append _ hem.needs
    exact fun i hi => Nat.le_trans (hw.needs i hi) (hw.npars ▸ hem.npars)

theorem Written.next : Written pre toks.tail n is g.next := ⟨hw.code, by rw [Gen.next, hw.toks], hw.npars, hw.needs⟩

theorem Written.op (o : Op) : Written pre toks n (is ++ [.op o]) (g.op o) := hw.emit (.op o) rfl o.code_bounds.2 rfl

theorem Written.curPc : g.curPc = (pre ++ encode is).length := by
  rw [Gen.curPc, hw.code]

end

theorem Gen.compPredicate_ok
    (hw : Written pre (rel.token :: toks) n is1 g) (hp1 : ParAlone t1 is1) (ha : a.assemble ts = some (is1, t1))
    (h : g.compPredicate ts t1 pre.length rel = .ok (g', c)) :
    ∃ b is n', toks = b.tokens ++ g'.toks ∧ assemble ts (.comp a rel b) = .ok is ∧ c = rel.condition ∧ n ≤ n' ∧
      Written pre g'.toks n' is g' := by
  obtain ⟨⟨g2, t2⟩, h2, h⟩ := bind_ok h
  obtain ⟨b, is2, htk, hb, hp2, hn, hw2⟩ := hw.next.operand h2
  obtain ⟨_, -, h⟩ := bind_ok h
  obtain ⟨ts1, hs1, h⟩ := bind_ok h
  obtain ⟨ts2, hs2, h⟩ := bind_ok h
  obtain ⟨⟨g3, t⟩, h3, h⟩ := bind_ok h
  rw [hw.next.curPc] at h3
  obtain ⟨is, his, hw3⟩ := unify_ok hw2.next hp1 hp2 h3
  have htk3 : toks = b.tokens ++ g3.toks := by rw [hw3.toks]; exact htk
  split_ifs at h with hlike hstr
  · cases h
    refine ⟨b, is ++ [.op .like], g2.npars, htk3, ?_, rfl, hn, hw3.toks ▸ hw3.op .like⟩
    simp only [assemble, ha, hb, orFault, ok_bind, hs1, hs2, his, if_pos hlike]
    rfl
  · obtain ⟨k, hk, h⟩ := bind_ok h
    cases h
    refine ⟨b, is ++ [.op (.cmp k)], g2.npars, htk3, ?_, rfl, hn, hw3.toks ▸ hw3.op (.cmp k)⟩
    simp only [assemble, ha, hb, orFault, ok_bind, hs1, hs2, his, if_neg hlike, hk]
    rfl

theorem Written.expect (hw : Written pre toks n is g)
    (h : g.expect tok text = .ok g') : toks = tok :: toks.tail ∧ Written pre toks.tail n is g' := by
  unfold Gen.expect at h
  split_ifs at h with hd
  cases h
  rw [hw.toks] at hd
  refine ⟨?_, hw.next⟩
  cases toks with
  | nil => cases hd
  | cons t rest => cases hd; rfl

theorem cons_of_head? (h : toks.head? = some tok) : toks = tok :: toks.tail := by
  cases toks with
  | nil => cases h
  | cons t rest => cases h; rfl

theorem Written.betweenHead (hw : Written pre toks n is g)
    (hd : toks.head? = some .between ∨ toks.head? = some .not) (h : g.betweenHead = .ok (g', negate)) :
    ∃ rest, toks = betweenTokens negate ++ rest ∧ Written pre rest n is g' := by
  unfold Gen.betweenHead at h
  split_ifs at h with hnot
  · obtain ⟨g1, h1, h⟩ := bind_ok h
    cases h
    obtain ⟨hb, hw1⟩ := hw.next.expect h1
    rw [hw.toks] at hnot
    exact ⟨_, (cons_of_head? hnot).trans (congrArg _ hb), hw1⟩
  · cases h
    rw [hw.toks] at hnot
    exact ⟨_, cons_of_head? (hd.resolve_right hnot), hw.next⟩

theorem Gen.betweenPredicate_ok {x : Operand} {c : Cond} (hw : Written pre toks n is1 g)
    (hd : toks.head? = some .between ∨ toks.head? = some .not) (hp1 : ParAlone t1 is1)
    (hx : x.assemble ts = some (is1, t1)) (h : g.betweenPredicate ts t1 pre.length = .ok (g', c)) :
    ∃ negate a b is n', x.tokens ++ toks = (between x negate a b).tokens ++ g'.toks ∧
      assemble ts (.between x negate a b) = .ok is ∧ c = (between x negate a b).condition ∧ n ≤ n' ∧
      Written pre g'.toks n' is g' := by
  obtain ⟨⟨g1, negate⟩, h1, h⟩ := bind_ok h
  obtain ⟨rest, hrest, hw1⟩ := hw.betweenHead hd h1
  obtain ⟨ts0, hs0, h⟩ := bind_ok h
  obtain ⟨⟨g2, tr1⟩, h2, h⟩ := bind_ok h
  obtain ⟨a, is2, htka, ha, hp2, hn2, hw2⟩ := hw1.operand h2
  obtain ⟨_, -, h⟩ := bind_ok h
  obtain ⟨ts1, hs1, h⟩ := bind_ok h
  obtain ⟨⟨g3, t'⟩, h3, h⟩ := bind_ok h
  rw [hw1.curPc] at h3
  obtain ⟨is, his, hw3⟩ := unifyLower_ok hw2 hp1 hp2 h3
  obtain ⟨g4, h4, h⟩ := bind_ok h
  obtain ⟨htk4, hw4⟩ := hw3.next.expect h4
  obtain ⟨⟨g5, tr2⟩, h5, h⟩ := bind_ok h
  obtain ⟨b, is3, htkb, hb, hp3, hn5, hw5⟩ := hw4.operand h5
  obtain ⟨ts2, hs2, h⟩ := bind_ok h
  obtain ⟨_, -, h⟩ := bind_ok h
  obtain ⟨g6, h6, h⟩ := bind_ok h
  rw [hw4.curPc] at h6
  obtain ⟨js, hjs, hw6⟩ := unifyUpper_ok hw5.next hp3 h6
  obtain ⟨k, hk, h⟩ := bind_ok h
  cases h
  refine ⟨negate, a, b, js ++ [.op (.btw k)], g5.npars, ?_, ?_, rfl, Nat.le_trans hn2 hn5, hw6.toks ▸ hw6.op (.btw k)⟩
  · have hr : rest = a.tokens ++ .and :: (b.tokens ++ g6.toks) := by
      calc rest = a.tokens ++ g2.toks.tail := htka
        _ = a.tokens ++ .and :: g2.toks.tail.tail := by rw [← htk4]
        _ = a.tokens ++ .and :: (b.tokens ++ g5.toks.tail) := congrArg (fun ts => a.tokens ++ .and :: ts) htkb
        _ = a.tokens ++ .and :: (b.tokens ++ g6.toks) := by rw [hw6.toks]
    simp [hrest, hr, tokens, op_toks]
  · simp only [assemble, hx, ha, hb, orFault, ok_bind, hs0, hs1, hs2, his, hjs, hk]
    rfl

theorem Written.emitted {is : List Instr} {n' : Nat} (hw : Written g.code toks n' is g') (hn : g.npars ≤ n') :
    Emitted g g' is := ⟨hw.code, hw.npars ▸ hn, hw.npars ▸ hw.needs⟩

theorem Gen.predicate_ok (h : g.predicate ts = .ok (g', c)) :
    ∃ p is, g.toks = p.tokens ++ g'.toks ∧ assemble ts p = .ok is ∧ c = p.condition ∧ Emitted g g' is := by
  unfold predicate at h
  obtain ⟨⟨g1, t1⟩, h1, h⟩ := bind_ok h
  have hw0 : Written g.code g.toks g.npars [] g := ⟨(append_nil _).symm, rfl, rfl, nofun⟩
  obtain ⟨a, is1, htk, ha, hp1, hn1, hw1⟩ := hw0.operand h1
  dsimp only at h
  have hfirst : ∀ p is n', g1.npars ≤ n' → a.tokens ++ g1.next.toks = p.tokens ++ g'.toks →
      assemble ts p = .ok is → c = p.condition → Written g.code g'.toks n' is g' →
      ∃ p is, g.toks = p.tokens ++ g'.toks ∧ assemble ts p = .ok is ∧ c = p.condition ∧ Emitted g g' is :=
    fun p is n' hn hp has hc hw => ⟨p, is, htk.trans hp, has, hc, hw.emitted (Nat.le_trans hn1 hn)⟩
  split at h
  case h_1 hd | h_2 hd =>
    obtain ⟨negate, lo, hi, is, n', hp, has, hc, hn, hw⟩ :=
      betweenPredicate_ok hw1.next (by first | exact .inl hd | exact .inr hd) hp1 ha h
    exact hfirst _ is n' hn hp has hc hw
  · rename_i tok _ _ hd
    split at h
    · rename_i rel hrel
      have hrest := cons_of_head? hd
      rw [Token.relOp_eq_some.1 hrel] at hrest
      have hw := hw1.next
      rw [show g1.toks.tail = _ from hrest] at hw
      obtain ⟨b, is, n', hp, has, hc, hn, hw⟩ := compPredicate_ok hw hp1 ha h
      refine hfirst (.comp a rel b) is n' hn ?_ has hc hw
      rw [hrest, hp, tokens]
      simp
    · cases h
  · cases h

end Qeo.Sql
