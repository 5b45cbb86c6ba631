import QeoCore.PolicyCache
/-!
# PolicyParser — the text of a policy

`policyParserRun` calls back for what it finds, `policyParserGetSequenceNumber` only looks for the sequence number.
Both are given the memory from the start of the text on: a line with nothing after `seqnr` makes them read behind it.
-/
namespace Qeo.Security

/-! ## Lines and numbers -/

def nul : Char := Char.ofNat 0

def cString (memory : List Char) : List Char := memory.takeWhile (· != nul)

def behind (memory : List Char) : List Char := cString (memory.drop ((cString memory).length + 1))

def isLineEnd (c : Char) : Bool := c == '\r' || c == '\n'

def isSpace (c : Char) : Bool := c == ' ' || (9 ≤ c.toNat && c.toNat ≤ 13)

/-- `strtok_r(.., "\r\n", ..)`: the lines that are not empty, each with what stands behind the character that ended it.
-/
def tokens (beyond : List Char) (line : List Char) : List Char → List (List Char × List Char)
  | [] => if line = [] then [] else [(line.reverse, beyond)]
  | c :: rest =>
    if isLineEnd c then
      if line = [] then tokens beyond [] rest else (line.reverse, rest) :: tokens beyond [] rest
    else tokens beyond (c :: line) rest

def removeWs (line : List Char) : List Char := line.filter (!isSpace ·)

/-- The string at `line + k`, where the line without its blanks has at least `k - 1` characters.  When it has no more,
that is behind its terminating zero: in what `remove_ws` left of the line, or behind the line. -/
def valueAt (k : Nat) (raw after : List Char) : List Char :=
  if k ≤ (removeWs raw).length then (removeWs raw).drop k else if k ≤ raw.length then raw.drop k else after

def digits (s : List Char) : List Char := s.takeWhile Char.isDigit

def digitsValue (s : List Char) : Nat := s.foldl (fun n c => n * 10 + (c.toNat - '0'.toNat)) 0

def strtoull (s : List Char) : Nat × List Char :=
  let s' := s.dropWhile isSpace
  let negative := s'.head? = some '-'
  let s'' := if negative || s'.head? = some '+' then s'.drop 1 else s'
  let ds := digits s''
  if ds = [] then (0, s)
  else
    let n := digitsValue ds
    (if 2 ^ 64 ≤ n then 2 ^ 64 - 1 else if negative then (2 ^ 64 - n) % 2 ^ 64 else n, s''.drop ds.length)

def metaTag : List Char := ['[', 'm', 'e', 't', 'a', ']']

def seqnrKey : List Char := ['s', 'e', 'q', 'n', 'r']

def versionKey : List Char := ['v', 'e', 'r', 's', 'i', 'o', 'n']

def supportedVersion : List Char := ['1', '.', '0']

/-! ## The sequence number -/

def sequenceNumberLine (st : Bool × Nat) (l : List Char × List Char) : Bool × Nat :=
  let line := removeWs l.1
  match line with
  | [] => st
  | '#' :: _ => st
  | '[' :: tag => if metaTag.isPrefixOf line then (true, st.2) else if tag = [] then st else (false, st.2)
  | _ =>
    if st.1 && seqnrKey.isPrefixOf line then
      let (n, endptr) := strtoull (valueAt 6 l.1 l.2)
      (st.1, if endptr = [] then n else 0)
    else st

def policyParserGetSequenceNumber (content : List Char) : Nat :=
  ((tokens (behind content) [] (cString content)).foldl sequenceNumberLine (false, 0)).2

/-! ## The parser -/

inductive Callback where
  | sequenceNumber (n : Nat)
  | participant (tag : Name)
  | coarseGrainedRule (tag : Option Name) (topic : Name) (perms : Perms)
  | fineGrainedRuleSection (tag : Option Name) (topic : Name) (participant : Name) (perms : Perms)

inductive ParseFail where
  | einval | efail

structure Parser where
  parsingMeta : Bool
  cookie : Option Name

def semicolonSeparated (item : List Char) : List Char → List (List Char)
  | [] => if item = [] then [] else [item.reverse]
  | c :: rest =>
    if c == ';' then
      if item = [] then semicolonSeparated [] rest else item.reverse :: semicolonSeparated [] rest
    else semicolonSeparated (c :: item) rest

def strstr (needle : List Char) : List Char → Option (List Char)
  | [] => if needle = [] then some [] else none
  | c :: rest => if needle.isPrefixOf (c :: rest) then some (c :: rest) else strstr needle rest

def bracketSection (needle value : List Char) : Option (List (List Char)) :=
  match strstr needle value with
  | none => some []
  | some start => if '>' ∈ start then
      some (semicolonSeparated [] ((start.drop needle.length).takeWhile (· != '>'))) else none

def processFineGrainedRule (tag : Option Name) (topic value : List Char) : List Callback :=
  match bracketSection ['r', '<'] value with
  | none => []
  | some readers =>
    readers.map (Callback.fineGrainedRuleSection tag topic · (Perms.only .read)) ++
      match bracketSection ['w', '<'] value with
      | none => []
      | some writers => writers.map (Callback.fineGrainedRuleSection tag topic · (Perms.only .write))

def processRule (tag : Option Name) (line : List Char) : Except ParseFail (List Callback) :=
  if '=' ∈ line then
    let topic := line.takeWhile (· != '=')
    let value := (line.dropWhile (· != '=')).drop 1
    if '<' ∈ value then .ok (processFineGrainedRule tag topic value)
    else .ok [.coarseGrainedRule tag topic ⟨'r' ∈ value || 'R' ∈ value, 'w' ∈ value || 'W' ∈ value⟩]
  else .error .einval

def parseLine (parser : Parser) (l : List Char × List Char) : Except ParseFail (Parser × List Callback) :=
  let line := removeWs l.1
  match line with
  | [] => .ok (parser, [])
  | '#' :: _ => .ok (parser, [])
  | '[' :: tag =>
    if metaTag.isPrefixOf line then .ok ({ parser with parsingMeta := true }, [])
    else if tag = [] then .ok (parser, [])
    else
      -- `sscanf` reads at most 31 characters, among which the closing bracket has to be
      let uidstr := tag.take 31
      if ']' ∈ uidstr then
        let tag := uidstr.takeWhile (· != ']')
        .ok (⟨false, some tag⟩, [.participant tag])
      else .error .einval
  | _ =>
    if parser.parsingMeta then
      if seqnrKey.isPrefixOf line then
        let (n, endptr) := strtoull (valueAt 6 l.1 l.2)
        if endptr = [] then .ok (parser, [.sequenceNumber n]) else .error .einval
      else if versionKey.isPrefixOf line then
        if valueAt 8 l.1 l.2 = supportedVersion then .ok (parser, []) else .error .efail
      else .ok (parser, [])
    else (processRule parser.cookie line).map fun callbacks => (parser, callbacks)

def parseLines (parser : Parser) : List (List Char × List Char) → List Callback × Option ParseFail
  | [] => ([], none)
  | l :: ls =>
    match parseLine parser l with
    | .error e => ([], some e)
    | .ok (parser, callbacks) => (callbacks ++ (parseLines parser ls).1, (parseLines parser ls).2)

def policyParserRun (buf : List Char) : List Callback × Option ParseFail :=
  parseLines ⟨false, none⟩ (tokens (behind buf) [] (cString buf))

/-! ## What is called back -/

namespace Callback

def isNumber : Callback → Bool
  | sequenceNumber _ => true
  | _ => false

def isParticipant : Callback → Bool
  | participant _ => true
  | _ => false

def ruleTag : Callback → Option (Option Name)
  | coarseGrainedRule tag _ _ => some tag
  | fineGrainedRuleSection tag _ _ _ => some tag
  | _ => none

end Callback

open Callback

def sequenceNumberOf (callbacks : List Callback) : Nat :=
  callbacks.foldl (fun n c => match c with | .sequenceNumber m => m | _ => n) 0

theorem processRule_ruleTag (h : processRule tag line = .ok callbacks) : ∀ c ∈ callbacks, ruleTag c = some tag := by
  unfold processRule at h
  split at h
  · dsimp only at h
    split at h
    · cases h
      intro c hc
      unfold processFineGrainedRule at hc
      split at hc
      · cases hc
      rcases List.mem_append.1 hc with hc | hc
      · obtain ⟨_, _, rfl⟩ := List.mem_map.1 hc
        rfl
      split at hc
      · cases hc
      · obtain ⟨_, _, rfl⟩ := List.mem_map.1 hc
        rfl
    · cases h
      intro c hc
      obtain rfl := List.mem_singleton.1 hc
      rfl
  · cases h

theorem parseLine_cases (h : parseLine p l = .ok (p', callbacks)) :
    (p' = p ∧ callbacks = []) ∨ (p' = { p with parsingMeta := true } ∧ callbacks = []) ∨
    (∃ tag, p' = ⟨false, some tag⟩ ∧ callbacks = [.participant tag]) ∨
    (∃ n, p.parsingMeta = true ∧ p' = p ∧ callbacks = [.sequenceNumber n]) ∨
    (p.parsingMeta = false ∧ p' = p ∧ ∀ c ∈ callbacks, ruleTag c = some p.cookie) := by
  unfold parseLine at h
  dsimp only at h
  split at h
  · cases h
    exact .inl ⟨rfl, rfl⟩
  · cases h
    exact .inl ⟨rfl, rfl⟩
  · split at h
    · cases h
      exact .inr (.inl ⟨rfl, rfl⟩)
    split at h
    · cases h
      exact .inl ⟨rfl, rfl⟩
    split at h
    · cases h
      exact .inr (.inr (.inl ⟨_, rfl, rfl⟩))
    · cases h
  split at h
  · split at h
    · split at h
      · cases h
        exact .inr (.inr (.inr (.inl ⟨_, ‹_›, rfl, rfl⟩)))
      · cases h
    · split at h
      · split at h
        · cases h
          exact .inl ⟨rfl, rfl⟩
        · cases h
      · cases h
        exact .inl ⟨rfl, rfl⟩
  cases hr : processRule p.cookie (removeWs l.1) with
  | error e =>
    rw [hr] at h
    cases h
  | ok cs =>
    rw [hr] at h
    cases h
    exact .inr (.inr (.inr (.inr ⟨eq_false_of_ne_true ‹_›, rfl, processRule_ruleTag hr⟩)))

theorem parseLines_meta : ∀ ls : List (List Char × List Char),
    ∀ c ∈ (parseLines ⟨true, none⟩ ls).1.find? (!isNumber ·), isParticipant c = true
  | [] => nofun
  | l :: ls => by
    intro c hc
    unfold parseLines at hc
    split at hc
    · cases hc
    rcases parseLine_cases ‹_› with ⟨rfl, rfl⟩ | ⟨rfl, rfl⟩ | ⟨tag, rfl, rfl⟩ | ⟨n, _, rfl, rfl⟩ | ⟨hm, _⟩
    · exact parseLines_meta ls c hc
    · exact parseLines_meta ls c hc
    · cases hc
      rfl
    · exact parseLines_meta ls c hc
    · cases hm

/-- Nothing is called back for a participant that was not: the callbacks start with a rule for nobody, or the first that
is not for a number is for a participant. -/
theorem parseLines_start : ∀ ls : List (List Char × List Char),
    (∃ c cs, (parseLines ⟨false, none⟩ ls).1 = c :: cs ∧ ruleTag c = some none) ∨
      ∀ c ∈ (parseLines ⟨false, none⟩ ls).1.find? (!isNumber ·), isParticipant c = true
  | [] => .inr nofun
  | l :: ls => by
    unfold parseLines
    split
    · exact .inr nofun
    rename_i p' callbacks hl
    rcases parseLine_cases hl with ⟨rfl, rfl⟩ | ⟨rfl, rfl⟩ | ⟨tag, rfl, rfl⟩ | ⟨n, hm, _⟩ | ⟨_, rfl, hr⟩
    · exact parseLines_start ls
    · exact .inr (parseLines_meta ls)
    · refine .inr fun c hc => ?_
      cases hc
      rfl
    · cases hm
    · match callbacks with
      | [] => exact parseLines_start ls
      | c :: cs => exact .inl ⟨c, _, rfl, hr c List.mem_cons_self⟩

end Qeo.Security
