import QeoCore.Flow
/-!
# SqlCode — filter bytecode and its interpreter (bytecode.h, bytecode.c)

The values on the stack and what is computed on them (`Values`) are left open: nothing that decides where a program goes
or how it ends looks into them except through a comparison result or a truth value.  A read or a pop with nothing there
is a `fault`.
-/
namespace Qeo.Sql

open Flow

abbrev Name := List Char

/-! ## Types -/

/-- The kinds of type that have neither members nor constants a filter can name. -/
inductive Simple
  | boolean | octet | short | ushort | long | ulong | longlong | ulonglong | float | double | longdouble | char | wchar
  | bitset | alias | array | sequence | string | map | union | annotation
  deriving DecidableEq

inductive Ty
  | simple (kind : Simple)
  | enumeration (constants : List (Name × Int))
  /-- The type of a member is looked up by its id; it may be missing. -/
  | struct (members : List (Name × Option Ty))

inductive Mode
  | cdr | plCdr | xml | raw | vTc | xTc
  deriving DecidableEq

structure TypeSupport where
  prefer : Mode
  cdr : Option Ty

/-! ## Opcodes -/

/-- The types that an instruction can load. -/
inductive Size
  | bu | bs | su | ss | wu | ws | l | f | d | o | s
  deriving DecidableEq

inductive Cmp
  | wu | ws | lu | ls | d | o | s
  deriving DecidableEq

inductive Btw
  | wu | ws | lu | ls | d | o
  deriving DecidableEq

inductive Cond
  | eq | ne | gt | le | lt | ge | t | f
  deriving DecidableEq

inductive Conv
  | wu2l | ws2l | wu2d | ws2d | wu2o | ws2o | lu2d | ls2d | lu2o | ls2o | d2o | s2w | s2l | s2d | s2o | c2s
  deriving DecidableEq

inductive Op
  | lc (k : Size) | ld (k : Size) | lp (k : Size)
  | cmp (k : Cmp) | btw (k : Btw) | like
  | br (c : Cond)
  | conv (k : Conv)
  | cref | disc | tref | fcr | fofs | ds0 | ds1
  | ret | retc | rett | retf | crff | crft | crtf | crtt | crne

def Size.all : List Size := [.bu, .bs, .su, .ss, .wu, .ws, .l, .f, .d, .o, .s]

/-- The opcodes from 0x80 on, row by row; the gaps between them and O_NOP are no instructions. -/
def Op.ofByte (b : Nat) : Option Op :=
  match b / 16 with
  | 8 => Size.all[b % 16]?.map .lc
  | 9 => Size.all[b % 16]?.map .ld
  | 10 => Size.all[b % 16]?.map .lp
  | 11 => ([Op.cmp .wu, .cmp .ws, .cmp .lu, .cmp .ls, .cmp .d, .cmp .o, .cmp .s,
            .btw .wu, .btw .ws, .btw .lu, .btw .ls, .btw .d, .btw .o, .like] : List Op)[b % 16]?
  | 12 => (([some (Op.br .eq), some (.br .ne), some (.br .gt), some (.br .le), some (.br .lt), some (.br .ge),
            none, none, some (.br .t), some (.br .f)] : List (Option Op))[b % 16]?).join
  | 13 => ([.wu2l, .ws2l, .wu2d, .ws2d, .wu2o, .ws2o, .lu2d, .ls2d, .lu2o, .ls2o, .d2o, .s2w, .s2l, .s2d, .s2o,
            .c2s] : List Conv)[b % 16]?.map .conv
  | 14 => ([.cref, .disc, .tref, .fcr, .fofs, .ds0, .ds1] : List Op)[b % 16]?
  | 15 => ([.ret, .retc, .rett, .retf, .crff, .crft, .crtf, .crtt, .crne] : List Op)[b % 16]?
  | _ => none

def Size.index : Size → Nat
  | .bu => 0 | .bs => 1 | .su => 2 | .ss => 3 | .wu => 4 | .ws => 5 | .l => 6 | .f => 7 | .d => 8 | .o => 9 | .s => 10

def Op.code : Op → Nat
  | .lc k => 0x80 + k.index
  | .ld k => 0x90 + k.index
  | .lp k => 0xa0 + k.index
  | .cmp .wu => 0xb0 | .cmp .ws => 0xb1 | .cmp .lu => 0xb2 | .cmp .ls => 0xb3 | .cmp .d => 0xb4 | .cmp .o => 0xb5
  | .cmp .s => 0xb6
  | .btw .wu => 0xb7 | .btw .ws => 0xb8 | .btw .lu => 0xb9 | .btw .ls => 0xba | .btw .d => 0xbb | .btw .o => 0xbc
  | .like => 0xbd
  | .br .eq => 0xc0 | .br .ne => 0xc1 | .br .gt => 0xc2 | .br .le => 0xc3 | .br .lt => 0xc4 | .br .ge => 0xc5
  | .br .t => 0xc8 | .br .f => 0xc9
  | .conv .wu2l => 0xd0 | .conv .ws2l => 0xd1 | .conv .wu2d => 0xd2 | .conv .ws2d => 0xd3 | .conv .wu2o => 0xd4
  | .conv .ws2o => 0xd5 | .conv .lu2d => 0xd6 | .conv .ls2d => 0xd7 | .conv .lu2o => 0xd8 | .conv .ls2o => 0xd9
  | .conv .d2o => 0xda | .conv .s2w => 0xdb | .conv .s2l => 0xdc | .conv .s2d => 0xdd | .conv .s2o => 0xde
  | .conv .c2s => 0xdf
  | .cref => 0xe0 | .disc => 0xe1 | .tref => 0xe2 | .fcr => 0xe3 | .fofs => 0xe4 | .ds0 => 0xe5 | .ds1 => 0xe6
  | .ret => 0xf0 | .retc => 0xf1 | .rett => 0xf2 | .retf => 0xf3 | .crff => 0xf4 | .crft => 0xf5 | .crtf => 0xf6
  | .crtt => 0xf7 | .crne => 0xf8

def nop : Nat := 0xff

theorem Op.ofByte_code : ∀ op : Op, Op.ofByte op.code = some op
  | .lc k => by cases k <;> rfl
  | .ld k => by cases k <;> rfl
  | .lp k => by cases k <;> rfl
  | .cmp k => by cases k <;> rfl
  | .btw k => by cases k <;> rfl
  | .br c => by cases c <;> rfl
  | .conv k => by cases k <;> rfl
  | .like | .cref | .disc | .tref | .fcr | .fofs | .ds0 | .ds1 => rfl
  | .ret | .retc | .rett | .retf | .crff | .crft | .crtf | .crtt | .crne => rfl

theorem Op.code_bounds (op : Op) : 0x80 ≤ op.code ∧ op.code < 256 := by
  cases op with
  | lc k => cases k <;> decide
  | ld k => cases k <;> decide
  | lp k => cases k <;> decide
  | cmp k => cases k <;> decide
  | btw k => cases k <;> decide
  | br c => cases c <;> decide
  | conv k => cases k <;> decide
  | _ => decide

/-! ## Programs and what they work on -/

structure Values (E : Type) where
  lci : Int → E
  lc : Size → List Nat → E
  lp : Size → List Nat → E
  cmp : Cmp → E → E → Int
  btw : Btw → E → E → E → E
  like : E → E → E
  conv : Conv → E → E
  isTrue : E → Bool
  int : E → Int

abbrev Sample (E : Type) := List Nat → Size → Nat → E

structure Env (E : Type) extends Values E where
  ts : TypeSupport
  data : Sample E
  data2 : Option (Sample E)
  pars : List (List Nat)

structure Program where
  code : List Nat
  npars : Nat
  deriving DecidableEq

inductive Error
  | stkovfl | invaddr | invdata | invop | invpar | infloop | unimpl
  deriving DecidableEq

inductive Outcome
  | ok (result : Int)
  | error (e : Error)
  | fault

/-- The registers of the interpreter. -/
structure Regs (E : Type) where
  /-- The element at `tos - 1` comes first. -/
  stack : List E
  r : Int
  /-- `cdp` is the second sample. -/
  second : Bool
  ctp : Option Ty
  cnest : Nat
  offset : List Nat

/-- The interpreter between two instructions; `n` counts them. -/
structure Machine (E : Type) where
  pc : Nat
  n : Nat
  regs : Regs E

def maxStack : Nat := 32

def maxInsts : Nat := 512

variable {E : Type}

section
variable (env : Env E)

section
variable (d : Regs E)

def Env.sample : Option (Sample E) := if d.second then env.data2 else some env.data

def Regs.push (x : E) : Regs E := { d with stack := x :: d.stack }

def Regs.reset : Regs E :=
  if d.cnest = 0 then d else { d with second := false, ctp := env.ts.cdr, cnest := 0, offset := [] }

/-- Pushes a member of the current structure. -/
def Regs.load (k : Size) (idx : Nat) : Except Outcome (Regs E) :=
  match d.ctp with
  | some (.struct members) =>
    match env.sample d with
    | some sample => if idx < members.length then .ok ((d.push (sample d.offset k idx)).reset env) else .error .fault
    | none => .error .fault
  | some _ => .error (.error .invdata)
  | none => .error .fault

def Regs.container (idx : Nat) : Except Outcome (Regs E) :=
  match d.ctp with
  | some (.struct members) =>
    match env.sample d, members[idx]? with
    | some _, some (_, some ty) => .ok { d with ctp := some ty, cnest := d.cnest + 1, offset := d.offset ++ [idx] }
    | some _, some (_, none) => .error (.error .invdata)
    | _, _ => .error .fault
  | some _ => .error (.error .invdata)
  | none => .error .fault

end

def Regs.branch (v : Values E) (d : Regs E) : Cond → Option (Bool × Regs E)
  | .eq => some (d.r = 0, d)
  | .ne => some (d.r ≠ 0, d)
  | .gt => some (0 < d.r, d)
  | .le => some (d.r ≤ 0, d)
  | .lt => some (d.r < 0, d)
  | .ge => some (0 ≤ d.r, d)
  | .t =>
    match d.stack with
    | x :: rest => some (v.isTrue x, { d with stack := rest })
    | [] => none
  | .f =>
    match d.stack with
    | x :: rest => some (!v.isTrue x, { d with stack := rest })
    | [] => none

def Regs.apply (v : Values E) (d : Regs E) : Op → Option (Regs E)
  | .cmp k =>
    match d.stack with
    | y :: x :: rest => some { d with stack := rest, r := v.cmp k x y }
    | _ => none
  | .btw k =>
    match d.stack with
    | b :: a :: x :: rest => some { d with stack := v.btw k x a b :: rest }
    | _ => none
  | .like =>
    match d.stack with
    | y :: x :: rest => some { d with stack := v.like x y :: rest }
    | _ => none
  | .conv k =>
    match d.stack with
    | x :: rest => some { d with stack := v.conv k x :: rest }
    | _ => none
  | .ds0 => some { d with second := false, offset := [] }
  | .ds1 => some { d with second := true, offset := [] }
  | _ => none

def Size.width : Size → Nat
  | .bu | .bs => 1
  | .su | .ss => 2
  | .wu | .ws | .f => 4
  | .l | .d => 8
  | .o => 16
  | .s => 0

section
variable (code : List Nat)

def word (pc : Nat) : Option Nat :=
  match code[pc]?, code[pc + 1]? with
  | some hi, some lo => some (hi * 256 + lo)
  | _, _ => none

/-- A constant in the code, and where the code goes on. -/
def constantAt (pc : Nat) (k : Size) : Option (List Nat × Nat) :=
  match k with
  | .s =>
    let text := (code.drop pc).takeWhile (· ≠ 0)
    if code[pc + text.length]? = some 0 then some (text, pc + text.length + 1) else none
  | k =>
    let bytes := (code.drop pc).take k.width
    if bytes.length = k.width then some (bytes, pc + k.width) else none

def goOn (pc n : Nat) (d : Regs E) : Machine E ⊕ Outcome := .inl ⟨pc, n + 1, d⟩

def condReturn (v : Values E) (pc n : Nat) (d : Regs E) (on : Bool) (result : Int) : Machine E ⊕ Outcome :=
  match d.stack with
  | x :: rest => if v.isTrue x = on then .inr (.ok result) else goOn pc n { d with stack := rest }
  | [] => .inr .fault

/-- BC_ERR_UNIMPL, as the value that `data_discriminant` leaves in the comparison result. -/
def unimplCode : Int := 2

def execute (pc n : Nat) (d : Regs E) : Op → Machine E ⊕ Outcome
  | .lc k =>
    match constantAt code pc k with
    | some (bytes, pc') => goOn pc' n (d.push (env.lc k bytes))
    | none => .inr .fault
  | .ld k =>
    match word code pc with
    -- the field number goes into the instruction counter
    | some idx =>
      match d.load env k idx with
      | .ok d' => goOn (pc + 2) idx d'
      | .error o => .inr o
    | none => .inr .fault
  | .lp k =>
    match code[pc]? with
    | some par =>
      match env.pars[par]? with
      | some text => goOn (pc + 1) n (d.push (env.lp k text))
      | none => .inr (.error .invpar)
    | none => .inr .fault
  | .br c =>
    match d.branch env.toValues c with
    | some (true, d') =>
      match word code pc with
      | some loc => goOn loc n d'
      | none => .inr .fault
    | some (false, d') => goOn (pc + 2) n d'
    | none => .inr .fault
  | .cref =>
    match word code pc with
    | some idx =>
      match d.container env idx with
      | .ok d' => goOn (pc + 2) idx d'
      | .error o => .inr o
    | none => .inr .fault
  | .disc =>
    match word code pc with
    | some idx => goOn (pc + 4) idx { d with r := unimplCode }
    | none => .inr .fault
  | .tref | .fcr | .fofs => .inr (.error .unimpl)
  | .ret =>
    match d.stack with
    | x :: _ => .inr (.ok (env.int x))
    | [] => .inr .fault
  | .retc => .inr (.ok d.r)
  | .rett => .inr (.ok 1)
  | .retf => .inr (.ok 0)
  | .crff => condReturn env.toValues pc n d false 0
  | .crft => condReturn env.toValues pc n d true 0
  | .crtf => condReturn env.toValues pc n d false 1
  | .crtt => condReturn env.toValues pc n d true 1
  | .crne => if d.r = 0 then goOn pc n d else .inr (.ok d.r)
  | op =>
    match d.apply env.toValues op with
    | some d' => goOn pc n d'
    | none => .inr .fault

def embedded (inst : Nat) : Int := if 0x40 ≤ inst then (inst : Int) - 128 else inst

def step (m : Machine E) : Machine E ⊕ Outcome :=
  if maxInsts ≤ m.n then .inr (.error .infloop)
  else if maxStack ≤ m.regs.stack.length then .inr (.error .stkovfl)
  else
    match code[m.pc]? with
    | none => .inr (.error .invaddr)
    | some inst =>
      if inst < 0x80 then goOn (m.pc + 1) m.n (m.regs.push (env.lci (embedded inst)))
      else
        match Op.ofByte inst with
        | none => .inr (.error .invop)
        | some op => execute env code (m.pc + 1) m.n m.regs op

end

def start : Machine E := ⟨0, 0, ⟨[], 0, false, env.ts.cdr, 0, []⟩⟩

end

/-- At most `fuel` rounds of `bc_interpret`; field numbers in the counter may keep the loop going for ever. -/
def bcInterpret (fuel : Nat) (env : Env E) (prog : Program) : Option Outcome :=
  if env.ts.prefer ≠ .cdr then some (.error .unimpl) else run (step env prog.code) fuel (start env)

def Interprets (env : Env E) (prog : Program) (o : Outcome) : Prop := ∃ fuel, bcInterpret fuel env prog = some o

end Qeo.Sql
