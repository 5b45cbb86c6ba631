import QeoCore.JumpCode
import QeoCore.SqlParse
/-!
# SqlGrammar — the grammar of filter conditions (sql.g)

`Derives s ts e`: the tokens `ts` are a condition, term or factor, and `e` is the expression they stand for.  A list of
tokens stands for one expression only (`Derives.unique`).
-/
namespace Qeo.Sql

open List JumpCode

inductive Operand
  /-- A field by its name, behind the names of the containers it is in. -/
  | field (name : Name) (path : List Name)
  | param (p : Param)

inductive Pred
  | comp (a : Operand) (rel : RelOp) (b : Operand)
  | between (x : Operand) (negate : Bool) (a b : Operand)

def pathTokens : List Name → List Token
  | [] => []
  | name :: path => .dot :: .id name :: pathTokens path

def Operand.tokens : Operand → List Token
  | .field name path => .id name :: pathTokens path
  | .param p => [.param p]

def RelOp.token : RelOp → Token
  | .eq => .eq
  | .ne => .ne
  | .gt => .gt
  | .ge => .ge
  | .lt => .lt
  | .le => .le
  | .like => .like

def betweenTokens : Bool → List Token
  | true => [.not, .between]
  | false => [.between]

def Pred.tokens : Pred → List Token
  | .comp a rel b => a.tokens ++ rel.token :: b.tokens
  | .between x negate a b => x.tokens ++ (betweenTokens negate ++ (a.tokens ++ .and :: b.tokens))

inductive Nonterminal
  | factor
  | term
  | andRest (before : Expr Pred)
  | condition
  | orRest (before : Expr Pred)

inductive Derives : Nonterminal → List Token → Expr Pred → Prop
  | pred (p : Pred) : Derives .factor p.tokens (.atom p)
  | not {ts : List Token} {e : Expr Pred} : Derives .factor ts e → Derives .factor (.not :: ts) (.not e)
  | paren {ts : List Token} {e : Expr Pred} : Derives .condition ts e → Derives .factor (.lpar :: (ts ++ [.rpar])) e
  | term {ts us : List Token} {x e : Expr Pred} :
    Derives .factor ts x → Derives (.andRest x) us e → Derives .term (ts ++ us) e
  | andDone (x : Expr Pred) : Derives (.andRest x) [] x
  | and {ts us : List Token} {x y e : Expr Pred} :
    Derives .factor ts y → Derives (.andRest (.and x y)) us e → Derives (.andRest x) (.and :: (ts ++ us)) e
  | condition {ts us : List Token} {x e : Expr Pred} :
    Derives .term ts x → Derives (.orRest x) us e → Derives .condition (ts ++ us) e
  | orDone (x : Expr Pred) : Derives (.orRest x) [] x
  | or {ts us : List Token} {x y e : Expr Pred} :
    Derives .term ts y → Derives (.orRest (.or x y)) us e → Derives (.orRest x) (.or :: (ts ++ us)) e

/-! ## One expression for each list of tokens -/

theorem RelOp.token_ne_dot (rel : RelOp) : rel.token ≠ .dot := by cases rel <;> decide

theorem Token.relOp_eq_some {tok : Token} : tok.relOp = some rel ↔ tok = rel.token := by
  constructor
  · intro h
    cases tok <;> cases h <;> rfl
  · rintro rfl
    cases rel <;> rfl

def NoDot (ts : List Token) : Prop := ts.head? ≠ some .dot

theorem pathTokens_inj : ∀ {p q : List Name} {r s : List Token}, pathTokens p ++ r = pathTokens q ++ s → NoDot r →
    NoDot s → p = q ∧ r = s
  | [], [], _, _, h, _, _ => ⟨rfl, h⟩
  | [], _ :: _, r, s, h, hr, _ => by
    rw [show r = _ from h] at hr
    exact absurd rfl hr
  | _ :: _, [], r, s, h, _, hs => by
    rw [show s = _ from h.symm] at hs
    exact absurd rfl hs
  | n :: p, m :: q, r, s, h, hr, hs => by
    simp only [pathTokens, cons_append, List.cons.injEq, Token.id.injEq, true_and] at h
    obtain ⟨rfl, h⟩ := h
    obtain ⟨rfl, rfl⟩ := pathTokens_inj h hr hs
    exact ⟨rfl, rfl⟩

theorem Operand.tokens_inj {a b : Operand} (h : a.tokens ++ r = b.tokens ++ s) (hr : NoDot r)
    (hs : NoDot s) : a = b ∧ r = s := by
  cases a <;> cases b <;>
    simp only [Operand.tokens, cons_append, nil_append, List.cons.injEq, Token.id.injEq, Token.param.injEq,
      reduceCtorEq, false_and] at h
  · obtain ⟨rfl, h⟩ := h
    obtain ⟨rfl, rfl⟩ := pathTokens_inj h hr hs
    exact ⟨rfl, rfl⟩
  · obtain ⟨rfl, rfl⟩ := h
    exact ⟨rfl, rfl⟩

theorem RelOp.token_inj {a b : RelOp} (h : a.token = b.token) : a = b := by
  rw [← Token.relOp_eq_some] at h
  rw [Token.relOp_eq_some.2 rfl] at h
  exact (Option.some.inj h).symm ▸ rfl

theorem noDot_relOp (rel : RelOp) (ts : List Token) : NoDot (rel.token :: ts) := by
  intro h
  exact rel.token_ne_dot (Option.some.inj h)

theorem noDot_between (negate : Bool) (ts : List Token) : NoDot (betweenTokens negate ++ ts) := by
  cases negate <;> exact nofun

theorem Pred.tokens_inj {p q : Pred} (h : p.tokens ++ r = q.tokens ++ s) (hr : NoDot r)
    (hs : NoDot s) : p = q ∧ r = s := by
  cases p with
  | comp a rel b =>
    cases q with simp only [Pred.tokens, append_assoc, cons_append] at h
    | comp a' rel' b' =>
      obtain ⟨rfl, h1⟩ := Operand.tokens_inj h (noDot_relOp _ _) (noDot_relOp _ _)
      obtain ⟨hrel, h2⟩ := List.cons.inj h1
      obtain rfl := RelOp.token_inj hrel
      obtain ⟨rfl, rfl⟩ := Operand.tokens_inj h2 hr hs
      exact ⟨rfl, rfl⟩
    | between x negate a' b' =>
      obtain ⟨rfl, h1⟩ := Operand.tokens_inj h (noDot_relOp _ _) (noDot_between _ _)
      cases negate <;> cases rel <;> cases h1
  | between x negate a b =>
    cases q with simp only [Pred.tokens, append_assoc, cons_append] at h
    | comp a' rel b' =>
      obtain ⟨rfl, h1⟩ := Operand.tokens_inj h (noDot_between _ _) (noDot_relOp _ _)
      cases negate <;> cases rel <;> cases h1
    | between x' negate' a' b' =>
      obtain ⟨rfl, h1⟩ := Operand.tokens_inj h (noDot_between _ _) (noDot_between _ _)
      have hn : negate = negate' ∧ a.tokens ++ (.and :: (b.tokens ++ r)) = a'.tokens ++ (.and :: (b'.tokens ++ s)) := by
        cases negate <;> cases negate' <;> simp_all [betweenTokens]
      obtain ⟨rfl, h2⟩ := hn
      obtain ⟨rfl, h3⟩ := Operand.tokens_inj h2 nofun nofun
      obtain ⟨rfl, rfl⟩ := Operand.tokens_inj (List.cons.inj h3).2 hr hs
      exact ⟨rfl, rfl⟩

theorem Pred.tokens_head (p : Pred) (r : List Token) :
    (∃ name, (p.tokens ++ r).head? = some (.id name)) ∨ ∃ q, (p.tokens ++ r).head? = some (.param q) := by
  rcases p with ⟨_ | _, _, _⟩ | ⟨_ | _, _, _, _⟩
  · exact .inl ⟨_, rfl⟩
  · exact .inr ⟨_, rfl⟩
  · exact .inl ⟨_, rfl⟩
  · exact .inr ⟨_, rfl⟩

def Nonterminal.Stops : Nonterminal → List Token → Prop
  | factor, r => NoDot r
  | term, r | andRest _, r => NoDot r ∧ r.head? ≠ some .and
  | condition, r | orRest _, r => NoDot r ∧ r.head? ≠ some .and ∧ r.head? ≠ some .or

theorem Derives.rest_stops (h : Derives s us e) (hr : s.Stops r) :
    match s with
    | .andRest _ => NoDot (us ++ r)
    | .orRest _ => Nonterminal.term.Stops (us ++ r)
    | _ => True := by
  cases h with
  | andDone => exact hr.1
  | and => exact nofun
  | orDone => exact ⟨hr.1, hr.2.1⟩
  | or => exact ⟨nofun, nofun⟩
  | _ => trivial

/-- **A list of tokens stands for one expression**, whatever follows it that does not go on with it. -/
theorem Derives.unique_append (h : Derives s ts e)
    (h' : Derives s us e') (heq : ts ++ r = us ++ r') (hr : s.Stops r) (hr' : s.Stops r') : e = e' ∧ r = r' := by
  induction h generalizing us r r' e' with
  | pred p =>
    cases h' with
    | pred q =>
      obtain ⟨rfl, rfl⟩ := Pred.tokens_inj heq hr hr'
      exact ⟨rfl, rfl⟩
    | not | paren => rcases p.tokens_head r with ⟨_, hp⟩ | ⟨_, hp⟩ <;> rw [heq] at hp <;> cases hp
  | not _ ih =>
    cases h' with
    | pred q => rcases q.tokens_head r' with ⟨_, hq⟩ | ⟨_, hq⟩ <;> rw [← heq] at hq <;> cases hq
    | not h' =>
      obtain ⟨rfl, rfl⟩ := ih h' (List.cons.inj heq).2 hr hr'
      exact ⟨rfl, rfl⟩
    | paren => cases heq
  | paren _ ih =>
    cases h' with
    | pred q => rcases q.tokens_head r' with ⟨_, hq⟩ | ⟨_, hq⟩ <;> rw [← heq] at hq <;> cases hq
    | not => cases heq
    | paren h' =>
      simp only [cons_append, append_assoc, nil_append, List.cons.injEq, true_and] at heq
      obtain ⟨rfl, hrest⟩ := ih h' heq ⟨nofun, nofun, nofun⟩ ⟨nofun, nofun, nofun⟩
      exact ⟨rfl, (List.cons.inj hrest).2⟩
  | term hf ha ihf iha | condition hf ha ihf iha =>
    cases h'
    rename_i hf' ha'
    rw [append_assoc, append_assoc] at heq
    obtain ⟨rfl, hrest⟩ := ihf hf' heq (rest_stops ha hr) (rest_stops ha' hr')
    exact iha ha' hrest hr hr'
  | andDone x =>
    cases h' with
    | andDone => exact ⟨rfl, heq⟩
    | and => exact absurd (by rw [show r = _ from heq]; rfl) hr.2
  | orDone x =>
    cases h' with
    | orDone => exact ⟨rfl, heq⟩
    | or => exact absurd (by rw [show r = _ from heq]; rfl) hr.2.2
  | and hf ha ihf iha | or hf ha ihf iha =>
    cases h'
    · simp [← show _ = r' from heq, Nonterminal.Stops] at hr'
    · rename_i hf' ha'
      simp only [cons_append, append_assoc, List.cons.injEq, true_and] at heq
      obtain ⟨rfl, hrest⟩ := ihf hf' heq (rest_stops ha hr) (rest_stops ha' hr')
      exact iha ha' hrest hr hr'

theorem Derives.unique (h : Derives .condition ts e) (h' : Derives .condition ts e') : e = e' :=
  (h.unique_append h' (rfl : ts ++ [] = ts ++ []) ⟨nofun, nofun, nofun⟩ ⟨nofun, nofun, nofun⟩).1

end Qeo.Sql
