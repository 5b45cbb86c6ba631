import QeoCore.SqlCode
/-!
# SqlParse — the one-pass filter compiler (parse.c)

A filter is the list of its tokens; behind the last one the scanner keeps answering end-of-line.  Every parse error
leaves the parser (`longjmp`); `fault` is a read outside a table or from a type without CDR description.
-/
namespace Qeo.Sql

inductive Param
  | int (i : Int)
  /-- The character's code as an `unsigned char`; the source has it in a `char`. -/
  | char (c : Nat)
  /-- The bytes of the number as a `double`. -/
  | float (bytes : Vector (Fin 256) 8)
  | string (s : List Nat)
  | par (index : Nat)
  deriving DecidableEq

inductive Token
  | param (p : Param)
  | id (name : Name)
  | dot | semi | comma | all | lpar | rpar | eq | gt | ge | lt | le | ne
  | order | by_ | select | from_ | as_ | inner | natural | join | where_ | and | or | not | between | like
  | invalid
  deriving DecidableEq

inductive ParseError
  /-- The token or thing that was expected, as the message names it. -/
  | expected (text : String)
  | incTypes
  | unknName (name : Name)
  | invComp
  | fault
  deriving DecidableEq

inductive Kind
  | simple (k : Simple)
  | enum
  | struct
  | par
  deriving DecidableEq

def Ty.kind : Ty → Kind
  | .simple k => .simple k
  | .enumeration _ => .enum
  | .struct _ => .struct

/-- The tokens that are left, and the code so far. -/
structure Gen where
  toks : List Token
  code : List Nat
  npars : Nat

open Gen

/-! ## Emitting code -/

section
variable (g : Gen)

def Gen.emit (c : Nat) : Gen := { g with code := g.code ++ [c % 256] }

def Gen.emits (s : Nat) : Gen := (g.emit (s / 256)).emit s

def Gen.op (op : Op) : Gen := g.emit op.code

def Gen.curPc : Nat := g.code.length

/-- Overwrites a byte that was emitted. -/
def Gen.setAtPc (ofs x : Nat) : Gen := { g with code := g.code.set ofs x }

/-- The loop of `ins_before`: `k` bytes from `ofs` on move up by one, the last one first. -/
def shiftUp (ofs : Nat) : Nat → List Nat → List Nat
  | 0, code => code
  | k + 1, code => shiftUp ofs k (code.set (ofs + k + 1) (code.getD (ofs + k) 0))

/-- The first byte the loop moves goes one place behind the end, where no program has a byte. -/
def Gen.insBefore (ofs x : Nat) : Gen :=
  let g := g.emit nop
  { g with code := (shiftUp ofs (g.curPc - ofs) g.code).set ofs x }

def Gen.next : Gen := { g with toks := g.toks.tail }

def Gen.expect (t : Token) (text : String) : Except ParseError Gen :=
  if g.toks.head? = some t then .ok g.next else .error (.expected text)

end

/-! ## Operands -/

def bytesOf (i : Int) : Nat → List Nat
  | 0 => []
  | k + 1 => ((i / 2 ^ (8 * k)) % 256).toNat :: bytesOf i k

def Gen.emitAll (g : Gen) : List Nat → Gen
  | [] => g
  | b :: bs => (g.emit b).emitAll bs

def Gen.constInt (g : Gen) (i : Int) : Gen × Kind :=
  if -64 ≤ i ∧ i ≤ 63 then (g.emit (i % 128).toNat, .simple .long)
  else if 0 ≤ i ∧ i ≤ 255 then ((g.op (.lc .bu)).emitAll (bytesOf i 1), .simple .ulong)
  else if -128 ≤ i ∧ i < 0 then ((g.op (.lc .bs)).emitAll (bytesOf i 1), .simple .long)
  else if 0 ≤ i ∧ i ≤ 0xffff then ((g.op (.lc .su)).emitAll (bytesOf i 2), .simple .ulong)
  else if -32768 ≤ i ∧ i < 0 then ((g.op (.lc .ss)).emitAll (bytesOf i 2), .simple .long)
  else if 0 ≤ i ∧ i ≤ 0xffffffff then ((g.op (.lc .wu)).emitAll (bytesOf i 4), .simple .ulong)
  else if -2147483648 ≤ i ∧ i < 0 then ((g.op (.lc .ws)).emitAll (bytesOf i 4), .simple .long)
  -- a 64-bit constant has its lowest byte first
  else ((g.op (.lc .l)).emitAll (bytesOf i 8).reverse, .simple .longlong)

def Gen.constFloat (g : Gen) (bytes : Vector (Fin 256) 8) : Gen :=
  (g.op (.lc .d)).emitAll (bytes.toList.map (·.val))

def Gen.constString (g : Gen) (s : List Nat) : Gen :=
  (g.op (.lc .s)).emitAll (s.takeWhile (fun c => c % 256 ≠ 0) ++ [0])

def memberAt (name : Name) : Nat → List (Name × Option Ty) → Option (Nat × Ty)
  | _, [] => none
  | i, (n, ty) :: rest => if n = name then ty.map (i, ·) else memberAt name (i + 1) rest

/-- The index and the type of a member. -/
def fieldLookup (tp : Option Ty) (name : Name) : Except ParseError (Option (Nat × Ty)) :=
  match tp with
  | some (.struct members) => .ok (memberAt name 0 members)
  | _ => .error .fault

def enumLookup (tp : Option Ty) (name : Name) : Option Int :=
  match tp with
  | some (.enumeration constants) => (constants.find? (·.1 = name)).map (·.2)
  | _ => none

def Kind.load : Kind → Option Size
  | .simple .short => some .ss
  | .simple .ushort => some .su
  | .simple .long | .enum => some .ws
  | .simple .wchar | .simple .ulong => some .wu
  | .simple .longlong | .simple .ulonglong => some .l
  | .simple .float => some .f
  | .simple .double => some .d
  | .simple .longdouble => some .o
  | .simple .boolean | .simple .octet => some .bu
  | .simple .char => some .bs
  | .simple .string => some .s
  | _ => none

/-- The field or constant at the head of `toks`; the head of a field in a container is read up to the field's own name.
-/
def Gen.identifier (enumOk : Bool) : List Token → Option Ty → Gen → Except ParseError (Gen × Kind)
  | .id name :: rest, tcp, g => do
    match ← fieldLookup tcp name with
    | none =>
      match enumOk, enumLookup tcp name with
      | true, some v => .ok ({ g with toks := .id name :: rest }.constInt v)
      | _, _ => .error (.unknName name)
    | some (ofs, .struct members) =>
      match rest with
      | .dot :: toks =>
        match toks with
        | .id _ :: _ => identifier enumOk toks (some (.struct members)) ((g.op .cref).emits ofs)
        | _ => .error (.expected "field/struct name")
      | _ => .error (.expected ".")
    | some (ofs, ty) =>
      match ty.kind.load with
      | some k => .ok (({ g with toks := .id name :: rest }.op (.ld k)).emits ofs, ty.kind)
      | none => .error .incTypes
  | _, _, _ => .error (.expected "<id:")

def charValue (c : Nat) : Int := if c % 256 < 128 then (c % 256 : Nat) else 2 ^ 32 - 256 + (c % 256 : Nat)

def Gen.parameter (g : Gen) : Param → Gen × Kind
  | .int i => g.constInt i
  | .char c => ((g.constInt (charValue c)).1, .simple .char)
  | .float bytes => (g.constFloat bytes, .simple .double)
  | .string s => (g.constString s, .simple .string)
  | .par index => ({ (g.op (.lp .s)).emit index with npars := max g.npars (index + 1) }, .par)

def Gen.idOrParameter (ts : TypeSupport) (g : Gen) : Except ParseError (Gen × Kind) :=
  match g.toks with
  | .id name :: rest => identifier true (.id name :: rest) ts.cdr g
  | .param p :: _ => .ok (g.parameter p)
  | _ => .error (.expected "<id:")

/-! ## Predicates -/

def Kind.isString (t : Kind) : Bool := t = .simple .string

def Kind.isChar (t : Kind) : Bool := t = .simple .char ∨ t = .simple .wchar

def checkTypes (t1 t2 : Kind) : Except ParseError Unit :=
  if t1 = .par ∨ t2 = .par then .ok ()
  else if (t1.isString ∧ t2.isChar) ∨ (t2.isString ∧ t1.isChar) then .ok ()
  else if t1.isString ≠ t2.isString then .error .incTypes
  else .ok ()

def typeSize : Kind → Except ParseError Nat
  | .simple .octet | .simple .boolean | .simple .char | .simple .ushort | .simple .short | .simple .ulong
  | .simple .long | .enum => .ok 4
  | .simple .ulonglong | .simple .longlong => .ok 8
  | .simple .float | .simple .double => .ok 12
  | .simple .longdouble => .ok 16
  | .simple .string | .par => .ok 0
  | _ => .error .incTypes

def compareOp : Kind → Except ParseError Cmp
  | .simple .octet | .simple .boolean | .simple .ushort | .simple .ulong => .ok .wu
  | .simple .char | .simple .wchar | .simple .short | .simple .long | .enum => .ok .ws
  | .simple .ulonglong => .ok .lu
  | .simple .longlong => .ok .ls
  | .simple .float | .simple .double => .ok .d
  | .simple .longdouble => .ok .o
  | .simple .string => .ok .s
  | _ => .error .incTypes

def convertTo (t2 : Kind) (l d o : Option Conv) : Option Conv :=
  match t2 with
  | .simple .longlong | .simple .ulonglong => l
  | .simple .float | .simple .double => d
  | .simple .longdouble => o
  | _ => none

/-- The conversion of a value on the stack from one type to another. -/
def convertn (t1 t2 : Kind) : Option Conv :=
  match t1 with
  | .simple .boolean | .simple .octet | .simple .ushort | .simple .ulong =>
    convertTo t2 (some .wu2l) (some .wu2d) (some .wu2o)
  | .simple .char | .simple .wchar | .simple .short | .simple .long =>
    convertTo t2 (some .ws2l) (some .ws2d) (some .ws2o)
  | .simple .ulonglong => convertTo t2 none (some .lu2d) (some .lu2o)
  | .simple .longlong => convertTo t2 none (some .ls2d) (some .ls2o)
  | .simple .float | .simple .double => convertTo t2 none none (some .d2o)
  | _ => none

def lparType : Kind → Except ParseError (Option Size)
  | .simple .boolean | .simple .octet => .ok (some .bu)
  | .simple .short => .ok (some .ss)
  | .simple .ushort => .ok (some .su)
  | .simple .long | .simple .wchar => .ok (some .ws)
  | .simple .ulong => .ok (some .wu)
  | .simple .longlong | .simple .ulonglong => .ok (some .l)
  | .simple .float => .ok (some .f)
  | .simple .double => .ok (some .d)
  | .simple .longdouble => .ok (some .o)
  | .simple .char => .ok (some .bs)
  | .simple .string => .ok (some .s)
  | .par => .error .fault
  | _ => .ok none

def convByte : Option Conv → Nat
  | some c => (Op.conv c).code
  | none => nop

def lparByte : Option Size → Nat
  | some k => (Op.lp k).code
  | none => nop

inductive RelOp
  | eq | ne | gt | ge | lt | le | like
  deriving DecidableEq

def Token.relOp : Token → Option RelOp
  | .eq => some .eq
  | .ne => some .ne
  | .gt => some .gt
  | .ge => some .ge
  | .lt => some .lt
  | .le => some .le
  | .like => some .like
  | _ => none

def RelOp.condition : RelOp → Cond
  | .eq => .ne
  | .ne => .eq
  | .gt => .le
  | .ge => .lt
  | .lt => .ge
  | .le => .gt
  | .like => .f

/-- The kind in which the two operands of a comparison are compared, each operand brought to it. -/
def Gen.unify (g : Gen) (t1 : Kind) (t1Ofs : Nat) (t2 : Kind) (t2Ofs ts1 ts2 : Nat) : Except ParseError (Gen × Kind) :=
  if t1 = .par then
    if t2 = .par ∨ t2.isString then .ok (g, .simple .string)
    else do return (g.setAtPc t1Ofs (lparByte (← lparType t2)), t2)
  else if t2 = .par then do return (g.setAtPc t2Ofs (lparByte (← lparType t1)), t1)
  else if t2.isString ∧ t1.isChar then .ok (g.insBefore t2Ofs (Op.conv .c2s).code, t2)
  else if t1.isString ∧ t2.isChar then .ok (g.op (.conv .c2s), t1)
  else if ts2 < ts1 then .ok (g.emit (convByte (convertn t2 t1)), t1)
  else if ts1 < ts2 then .ok (g.insBefore t2Ofs (convByte (convertn t1 t2)), t2)
  else .ok (g, t1)

def Gen.compPredicate (ts : TypeSupport) (g : Gen) (t1 : Kind) (t1Ofs : Nat) (cmp : RelOp) :
    Except ParseError (Gen × Cond) := do
  let g := g.next
  let t2Ofs := g.curPc
  let (g, t2) ← g.idOrParameter ts
  let g := g.next
  checkTypes t1 t2
  let ts1 ← typeSize t1
  let ts2 ← typeSize t2
  let (g, t) ← g.unify t1 t1Ofs t2 t2Ofs ts1 ts2
  if cmp = .like then
    if t1.isString ∧ t2.isString then return (g.op .like, cmp.condition) else .error .incTypes
  else
    let k ← compareOp t
    return (g.op (.cmp k), cmp.condition)

def betweenOp : Kind → Except ParseError Btw
  | .simple .octet | .simple .boolean | .simple .ushort | .simple .ulong => .ok .wu
  | .simple .char | .simple .wchar | .simple .short | .simple .long => .ok .ws
  | .simple .ulonglong => .ok .lu
  | .simple .longlong => .ok .ls
  | .simple .float | .simple .double => .ok .d
  | .simple .longdouble => .ok .o
  | _ => .error .incTypes

def Gen.unifyLower (g : Gen) (t : Kind) (tOfs : Nat) (tr1 : Kind) (t1Ofs ts0 ts1 : Nat) :
    Except ParseError (Gen × Kind) :=
  if tr1 = .par ∧ t = .par then do
    return (g.setAtPc tOfs (lparByte (← lparType (.simple .string))), .simple .string)
  else if tr1 = .par then do return (g.setAtPc t1Ofs (lparByte (← lparType t)), t)
  else if ts1 < ts0 then .ok (g.emit (convByte (convertn tr1 t)), t)
  else if ts0 < ts1 then .ok (g.insBefore t1Ofs (convByte (convertn t tr1)), tr1)
  else .ok (g, t)

def Gen.unifyUpper (g : Gen) (t tr2 : Kind) (t2Ofs ts0 ts2 : Nat) : Except ParseError Gen :=
  if tr2 = .par then do return g.setAtPc t2Ofs (lparByte (← lparType t))
  else if ts2 < ts0 then .ok (g.emit (convByte (convertn tr2 t)))
  else .ok g

def Gen.betweenHead (g : Gen) : Except ParseError (Gen × Bool) :=
  if g.toks.head? = some .not then do return (← g.next.expect .between "BETWEEN", true) else .ok (g.next, false)

def Gen.betweenPredicate (ts : TypeSupport) (g : Gen) (t : Kind) (tOfs : Nat) : Except ParseError (Gen × Cond) := do
  let (g, negate) ← g.betweenHead
  let ts0 ← typeSize t
  let t1Ofs := g.curPc
  let (g, tr1) ← g.idOrParameter ts
  checkTypes t tr1
  let ts1 ← typeSize tr1
  let (g, t) ← g.unifyLower t tOfs tr1 t1Ofs ts0 ts1
  let g ← g.next.expect .and "AND"
  let t2Ofs := g.curPc
  let (g, tr2) ← g.idOrParameter ts
  let ts2 ← typeSize tr2
  checkTypes t tr2
  let g ← g.next.unifyUpper t tr2 t2Ofs ts0 ts2
  let k ← betweenOp t
  return (g.op (.btw k), if negate then .t else .f)

def Gen.predicate (ts : TypeSupport) (g : Gen) : Except ParseError (Gen × Cond) := do
  let t1Ofs := g.curPc
  let (g, t1) ← g.idOrParameter ts
  let g := g.next
  match g.toks.head? with
  | some .between | some .not => g.betweenPredicate ts t1 t1Ofs
  | some tok =>
    match tok.relOp with
    | some cmp => g.compPredicate ts t1 t1Ofs cmp
    | none => .error (.expected "=")
  | none => .error (.expected "=")

/-! ## Conditions -/

def Cond.complement : Cond → Cond
  | .eq => .ne
  | .ne => .eq
  | .gt => .le
  | .le => .gt
  | .lt => .ge
  | .ge => .lt
  | .f => .t
  | .t => .f

/-- What a part of the condition leaves open: the branches to where it is true and to where it is false, and the
condition under which it is false if its last comparison is reached. -/
structure DataObject where
  tchain : List Nat
  fchain : List Nat
  condition : Cond

/-- Sets the target of every branch in a chain. -/
def Gen.backpatch (g : Gen) (chain : List Nat) (ofs : Nat) : Gen :=
  { g with code := chain.foldl (fun code o => (code.set (o + 1) (ofs / 256 % 256)).set (o + 2) (ofs % 256)) g.code }

def Gen.genCondition (g : Gen) (c : Cond) : Gen := (g.op (.br c)).emits 0

def DataObject.negate (op : DataObject) : DataObject := ⟨op.fchain, op.tchain, op.condition.complement⟩

def DataObject.boolOp (op np : DataObject) : DataObject :=
  ⟨op.tchain ++ np.tchain, op.fchain ++ np.fchain, np.condition⟩

/-- Branches away when the condition is false, and goes on when it is true. -/
def Gen.whenTrue (g : Gen) (op : DataObject) : Gen × DataObject :=
  let g' := g.genCondition op.condition
  (g'.backpatch op.tchain g'.curPc, ⟨[], op.fchain ++ [g.curPc], op.condition⟩)

def Gen.whenFalse (g : Gen) (op : DataObject) : Gen × DataObject :=
  let g' := g.genCondition op.condition.complement
  (g'.backpatch op.fchain g'.curPc, ⟨op.tchain ++ [g.curPc], [], op.condition⟩)

/-! The three functions of the grammar call each other; `fuel` bounds the calls, and `sqlParseFilter` gives as much as
the tokens can use. -/

mutual

def Gen.factor (ts : TypeSupport) : Nat → Gen → Except ParseError (Gen × DataObject)
  | 0, _ => .error .fault
  | fuel + 1, g =>
    match g.toks with
    | .not :: _ => do
      let (g, op) ← factor ts fuel g.next
      return (g, op.negate)
    | .lpar :: _ => do
      let (g, op) ← condition ts fuel g.next
      let g ← g.expect .rpar ")"
      return (g, op)
    | _ => do
      let (g, c) ← g.predicate ts
      return (g, ⟨[], [], c⟩)

def Gen.term (ts : TypeSupport) : Nat → Gen → Except ParseError (Gen × DataObject)
  | 0, _ => .error .fault
  | fuel + 1, g => do
    let (g, op) ← factor ts fuel g
    termLoop ts fuel g op

def Gen.termLoop (ts : TypeSupport) : Nat → Gen → DataObject → Except ParseError (Gen × DataObject)
  | 0, _, _ => .error .fault
  | fuel + 1, g, op =>
    if g.toks.head? = some .and then do
      let (g, op) := g.whenTrue op
      let (g, np) ← factor ts fuel g.next
      termLoop ts fuel g (op.boolOp np)
    else .ok (g, op)

def Gen.condition (ts : TypeSupport) : Nat → Gen → Except ParseError (Gen × DataObject)
  | 0, _ => .error .fault
  | fuel + 1, g => do
    let (g, op) ← term ts fuel g
    conditionLoop ts fuel g op

def Gen.conditionLoop (ts : TypeSupport) : Nat → Gen → DataObject → Except ParseError (Gen × DataObject)
  | 0, _, _ => .error .fault
  | fuel + 1, g, op =>
    if g.toks.head? = some .or then do
      let (g, op) := g.whenFalse op
      let (g, np) ← term ts fuel g.next
      conditionLoop ts fuel g (op.boolOp np)
    else .ok (g, op)

end

def Gen.patchOut (g : Gen) (op : DataObject) : Gen :=
  let (g, op) := g.whenTrue op
  let g := g.op .rett
  (g.backpatch op.fchain g.curPc).op .retf

def sqlParseFilter (ts : TypeSupport) (toks : List Token) : Except ParseError Program := do
  let (g, op) ← condition ts (3 * toks.length + 4) ⟨toks, [], 0⟩
  let g := g.patchOut op
  if g.toks = [] then return ⟨g.code, g.npars⟩ else .error (.expected "<eol>")

end Qeo.Sql
