import Mathlib.Data.List.Basic
/-!
# Nmatch — names against patterns (nmatch.c, uqos.c)

`nmatch` rewrites SQL wildcards and leaves the rest to `fnmatch`.  What POSIX says of that is written here over the
tokens of a pattern; a bracket expression and all behind it is left to `brackets`.
-/
namespace Qeo.Nmatch

open List

abbrev Name := List Char

inductive Token
  | lit (c : Char)
  | one
  | any
  | set (rest : Name)
  | never

/-- A backslash makes the next character literal, and at the end nothing matches it. -/
def tokens (wild : Char → Name → Token) : Name → List Token
  | [] => []
  | [c] => [if c = '\\' then .never else wild c []]
  | c :: d :: p => if c = '\\' then .lit d :: tokens wild p else wild c (d :: p) :: tokens wild (d :: p)

def posix (c : Char) (p : Name) : Token :=
  if c = '*' then .any else if c = '?' then .one else if c = '[' then .set p else .lit c

def sql (c : Char) (_ : Name) : Token := if c = '%' then .any else if c = '_' then .one else .lit c

variable (brackets : Name → Name → Bool)

def covers : List Token → Name → Bool
  | [], s => s.isEmpty
  | .lit c :: ts, s => s.head? == some c && covers ts s.tail
  | .one :: ts, s => !s.isEmpty && covers ts s.tail
  | .any :: ts, s => s.tails.any (covers ts)
  | .set p :: _, s => brackets p s
  | .never :: _, _ => false

def fnmatch (pattern name : Name) : Bool := covers brackets (tokens posix pattern) name

def rewrite : Bool → Name → Name
  | _, [] => []
  | esc, c :: p =>
    if c = '\\' ∧ esc = false then c :: rewrite true p
    else (if esc then c else if c = '%' then '*' else if c = '_' then '?' else c) :: rewrite false p

/-- `nmatch` with `NM_SQL`, if the copy of the pattern could be allocated or not. -/
def nmatchSql (mem : Bool) (pattern name : Name) : Bool := mem && fnmatch brackets (rewrite false pattern) name

def Like (pattern name : Name) : Bool := covers brackets (tokens sql pattern) name

/-- A wildcard of `fnmatch` without a backslash that is for it. -/
def wild : Name → Bool
  | [] => false
  | [c] => c = '*' || c = '?' || c = '['
  | c :: d :: p => if c = '\\' then wild p else c = '*' || c = '?' || c = '[' || wild (d :: p)

variable {brackets} {p : Name}

theorem tokens_cons (f : Char → Name → Token) (hc : c ≠ '\\') (p : Name) : tokens f (c :: p) = f c p :: tokens f p := by
  cases p <;> simp [tokens, hc]

theorem wild_cons (hc : c ≠ '\\') (h : wild (c :: p) = false) : (c ≠ '*' ∧ c ≠ '?' ∧ c ≠ '[') ∧ wild p = false := by
  cases p <;> simp_all [wild]

theorem posix_rewrite (h : c ≠ '*' ∧ c ≠ '?' ∧ c ≠ '[') (p q : Name) :
    posix (if c = '%' then '*' else if c = '_' then '?' else c) p = sql c q := by
  unfold posix sql
  split_ifs <;> simp_all

theorem tokens_rewrite : ∀ {p : Name}, wild p = false → tokens posix (rewrite false p) = tokens sql p
  | [], _ => rfl
  | [c], h => by
    by_cases hc : c = '\\'
    · simp [rewrite, tokens, hc]
    · rw [tokens_cons sql hc, ← posix_rewrite (wild_cons hc h).1 []]
      simp only [rewrite, hc, false_and, if_false, Bool.false_eq_true]
      exact tokens_cons posix (by split_ifs <;> simp_all) []
  | c :: d :: p, h => by
    by_cases hc : c = '\\'
    · have hp : wild p = false := by simpa [wild, hc] using h
      simp [rewrite, tokens, hc, tokens_rewrite hp]
    obtain ⟨hplain, hp⟩ := wild_cons hc h
    rw [tokens_cons sql hc, ← tokens_rewrite hp, ← posix_rewrite hplain (rewrite false (d :: p)), rewrite]
    simp only [hc, false_and, if_false, Bool.false_eq_true]
    exact tokens_cons posix (by split_ifs <;> simp_all) _

/-- **LIKE means what SQL says** for a pattern in which no wildcard of `fnmatch` stands unescaped. -/
theorem like_of_plain (h : wild p = false) (s : Name) : nmatchSql brackets true p s = Like brackets p s := by
  rw [nmatchSql, Bool.true_and, fnmatch, tokens_rewrite h, Like]

def noBrackets (_ _ : Name) : Bool := false

theorem like_percent : nmatchSql noBrackets true ['a', '%', '\\', '*'] ['a', 'b', '*'] = true :=
  (like_of_plain (by decide) _).trans (by decide)

/-- **A star stands for any sequence too.** -/
theorem star_not_itself : nmatchSql noBrackets true ['*'] ['a'] = true ∧ Like noBrackets ['*'] ['a'] = false := by
  decide

/-! ## Partitions -/

def wildcards : Bool → Name → Bool
  | _, [] => false
  | bslash, c :: s =>
    if c = '\\' then wildcards true s
    else if !bslash && (c = '[' || c = '?' || c = '*') then true
    else wildcards false s

variable (nmatch : Name → Name → Bool)

/-- `res` after a pair, as whether it is not 0: two names with wildcards leave it as it is. -/
def compared (res : Bool) (w r : Name) : Bool :=
  match wildcards false w, wildcards false r with
  | true, false => !nmatch w r
  | false, true => !nmatch r w
  | false, false => w != r
  | true, true => res

def search : Bool → List (Name × Name) → Bool
  | res, [] => res
  | res, p :: ps => if compared nmatch res p.1 p.2 then search (compared nmatch res p.1 p.2) ps else false

def pairs (ws rs : List Name) : List (Name × Name) := ws.flatMap fun w => rs.map (w, ·)

/-- The names of both sides are in one buffer, which is allocated if it is for more than 16. -/
def qosSamePartition (mem : Bool) (wp rp : Option (List (Option Name))) : Bool :=
  let wn := (wp.getD []).length
  let rn := (rp.getD []).length
  if wp.isNone && rp.isNone then true
  else if 16 < wn + rn && !mem then false
  else
    let ps := (wp.getD [] ++ rp.getD []).map (·.getD [])
    !search nmatch true (pairs (if wn = 0 then [[]] else ps.take wn) (if rn = 0 then [[]] else ps.drop wn))

def names (p : Option (List (Option Name))) : List Name :=
  if (p.getD []).length = 0 then [[]] else (p.getD []).map (·.getD [])

def Match (w r : Name) : Prop :=
  w = r ∨ (wild w = true ∧ wild r = false ∧ nmatch w r = true) ∨ (wild w = false ∧ wild r = true ∧ nmatch r w = true)

/-- A wildcard stands in the name with no backslash right before it. -/
def bare (n : Name) : Bool := (n.zip ('.' :: n)).any fun cb => (cb.1 = '[' || cb.1 = '?' || cb.1 = '*') && cb.2 != '\\'

/-- A pattern in which every wildcard stands behind a backslash that is itself escaped. -/
def hidden (n : Name) : Bool := wild n && !bare n

/-- Equal patterns, and a name that a hidden pattern matches. -/
def Missed (w r : Name) : Prop :=
  w = r ∧ bare w = true ∨ (hidden w = true ∧ wild r = false ∧ nmatch w r = true) ∨
    (hidden r = true ∧ wild w = false ∧ nmatch r w = true)

/-- A hidden pattern that another pattern matches. -/
def Mistaken (w r : Name) : Prop :=
  (bare w = true ∧ hidden r = true ∧ nmatch w r = true) ∨ (bare r = true ∧ hidden w = true ∧ nmatch r w = true)

variable {nmatch} {w r : Name} {wp rp : Option (List (Option Name))}

theorem wildcards_eq : ∀ (n : Name) (b : Char), wildcards (b == '\\') n =
    (n.zip (b :: n)).any fun cb => (cb.1 = '[' || cb.1 = '?' || cb.1 = '*') && cb.2 != '\\'
  | [], _ => rfl
  | c :: n, b => by
    rw [wildcards, zip_cons_cons, any_cons, ← wildcards_eq n c]
    by_cases hc : c = '\\'
    · simp [hc]
    · have hb : (c == '\\') = false := by simpa using hc
      rw [if_neg hc, hb]
      cases hbs : b == '\\' <;> simp [bne, hbs]

theorem wildcards_false (n : Name) : wildcards false n = bare n := wildcards_eq n '.'

theorem wildcards_of_escaped : ∀ {n : Name}, wildcards true n = true → wildcards false n = true
  | c :: n, h => by
    unfold wildcards at h ⊢
    split
    · simpa [*] using h
    · simp_all

theorem wild_of_wildcards : ∀ {n : Name}, wildcards false n = true → wild n = true
  | [c], h => by
    by_cases hc : c = '\\'
    · simp [wildcards, hc] at h
    · simp only [wildcards, hc, wild] at h ⊢
      grind
  | c :: d :: p, h => by
    by_cases hc : c = '\\'
    · have hp : wildcards false p = true := by
        by_cases hd : d = '\\'
        · exact wildcards_of_escaped (by simpa [wildcards, hc, hd] using h)
        · simpa [wildcards, hc, hd] using h
      simpa [wild, hc] using wild_of_wildcards hp
    · have ih := wild_of_wildcards (n := d :: p)
      rw [wildcards, if_neg hc] at h
      rw [wild, if_neg hc]
      grind

theorem wild_of_bare (h : bare n = true) : wild n = true := wild_of_wildcards ((wildcards_false n).trans h)

theorem search_eq_false : ∀ {ps : List (Name × Name)},
    search nmatch true ps = false ↔ ∃ p ∈ ps, compared nmatch true p.1 p.2 = false
  | [] => by simp [search]
  | p :: ps => by
    simp only [search, mem_cons, exists_eq_or_imp, ← search_eq_false]
    cases compared nmatch true p.1 p.2 <;> simp

theorem compared_iff : compared nmatch true w r = false ↔
    (Match nmatch w r ∧ ¬Missed nmatch w r) ∨ Mistaken nmatch w r := by
  have hw := wild_of_bare (n := w)
  have hr := wild_of_bare (n := r)
  unfold compared Match Missed Mistaken hidden
  rw [wildcards_false, wildcards_false]
  by_cases he : w = r
  · subst he
    revert hw
    cases bare w <;> cases wild w <;> simp
  · revert hw hr
    cases bare w <;> cases bare r <;> cases wild w <;> cases wild r <;> simp [he]

theorem match_of_missed (h : Missed nmatch w r) : Match nmatch w r := by
  rcases h with ⟨rfl, _⟩ | ⟨hh, hr, hm⟩ | ⟨hh, hw, hm⟩
  · exact .inl rfl
  · exact .inr (.inl ⟨(Bool.and_eq_true_iff.1 hh).1, hr, hm⟩)
  · exact .inr (.inr ⟨hw, (Bool.and_eq_true_iff.1 hh).1, hm⟩)

theorem qosSamePartition_iff {mem : Bool} (hmem : (wp.getD []).length + (rp.getD []).length ≤ 16 ∨ mem = true) :
    qosSamePartition nmatch mem wp rp = true ↔ ∃ w ∈ names wp, ∃ r ∈ names rp, compared nmatch true w r = false := by
  have hpair : (∃ p ∈ pairs (names wp) (names rp), compared nmatch true p.1 p.2 = false) ↔
      ∃ w ∈ names wp, ∃ r ∈ names rp, compared nmatch true w r = false := by
    simp only [pairs, mem_flatMap, mem_map, exists_exists_and_exists_and_eq_and]
  rw [← hpair, ← search_eq_false]
  unfold qosSamePartition
  split
  · -- both lists are absent
    rename_i h
    obtain ⟨rfl, rfl⟩ : wp = none ∧ rp = none := by simpa using h
    exact iff_of_true rfl rfl
  · rw [if_neg (by rcases hmem with h | h <;> simp [h, Nat.not_lt.2]), Bool.not_eq_true']
    simp [names, take_left', drop_left']

/-- **Partitions match by name or by one pattern exactly if** some pair does that is not missed, or else a pair is
missed exactly when another one is mistaken for a match. -/
theorem same_partition_iff {mem : Bool} (hmem : (wp.getD []).length + (rp.getD []).length ≤ 16 ∨ mem = true) :
    (qosSamePartition nmatch mem wp rp = true ↔ ∃ w ∈ names wp, ∃ r ∈ names rp, Match nmatch w r) ↔
      (∃ w ∈ names wp, ∃ r ∈ names rp, Match nmatch w r ∧ ¬Missed nmatch w r) ∨
        ((∃ w ∈ names wp, ∃ r ∈ names rp, Missed nmatch w r) ↔ ∃ w ∈ names wp, ∃ r ∈ names rp,
          Mistaken nmatch w r) := by
  have hmatch : ∀ w r, Match nmatch w r ↔ (Match nmatch w r ∧ ¬Missed nmatch w r) ∨ Missed nmatch w r := by
    intro w r
    by_cases h : Missed nmatch w r
    · simp [h, match_of_missed h]
    · simp [h]
  have hspec : (∃ w ∈ names wp, ∃ r ∈ names rp, Match nmatch w r) ↔
      (∃ w ∈ names wp, ∃ r ∈ names rp, Match nmatch w r ∧ ¬Missed nmatch w r) ∨
        ∃ w ∈ names wp, ∃ r ∈ names rp, Missed nmatch w r := by
    simp only [← exists_or, ← and_or_left, ← hmatch]
  rw [qosSamePartition_iff hmem, hspec]
  simp only [compared_iff, and_or_left, exists_or]
  by_cases h : ∃ w ∈ names wp, ∃ r ∈ names rp, Match nmatch w r ∧ ¬Missed nmatch w r
  · simp only [h, true_or]
  · simp only [h, false_or]
    exact iff_comm

def plainMatch : Name → Name → Bool := fnmatch noBrackets

theorem same_partition_star :
    qosSamePartition plainMatch true (some [none, some ['a', '*']]) (some [some ['a', 'b']]) = true :=
  have hm : Match plainMatch ['a', '*'] ['a', 'b'] := .inr (.inl (by decide))
  have hn : ¬Missed plainMatch ['a', '*'] ['a', 'b'] := by unfold Missed; decide
  ((same_partition_iff (.inl (by decide))).2 (.inl ⟨['a', '*'], by decide, ['a', 'b'], by decide, hm, hn⟩)).2
    ⟨['a', '*'], by decide, ['a', 'b'], by decide, hm⟩

/-- **A star behind an escaped backslash is not seen, and a pattern is not found equal to itself.** -/
theorem pattern_not_seen :
    (qosSamePartition plainMatch true (some [some ['\\', '\\', '*']]) (some [some ['\\', 'x']]) = false ∧
      Match plainMatch ['\\', '\\', '*'] ['\\', 'x']) ∧
    qosSamePartition plainMatch true (some [some ['*']]) (some [some ['*']]) = false :=
  ⟨⟨by decide, .inr (.inl (by decide))⟩, by decide⟩

end Qeo.Nmatch
