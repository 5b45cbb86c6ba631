import QeoCore.PolicyUpdate
import QeoCore.Trace
/-!
# PolicyRollback — policies offered by peers

A content is taken when the number found in it, as received, is above the published one.  The number that is then
published is the one in the signed body.
-/
namespace Qeo.Security

open List Trace

/-- `on_policy_content` with `set = 1`: the bytes received, and what the calls it makes give.  `heap` stands behind the
copy of the content, which is not terminated, and `bodyHeap` behind the body. -/
structure Offer where
  content : List Char
  heap : List Char
  stored : Bool
  credentials : Bool
  bodyHeap : List Char
  addDomain : Bool

namespace Offer

def outerNumber (o : Offer) : Nat := policyParserGetSequenceNumber (o.content ++ o.heap)

variable (verify : List Char → Option (List Char))

def update (o : Offer) : Update := ⟨o.content, o.credentials, verify o.content, o.bodyHeap, o.addDomain⟩

def signedNumber (o : Offer) : Nat :=
  match verify o.content with
  | some body => sequenceNumberOf ((o.update verify).parsed body).1
  | none => 0

/-- The number of a content that verifies is not made greater by what is around the body. -/
def Genuine (o : Offer) : Prop := (verify o.content).isSome → o.outerNumber ≤ o.signedNumber verify

instance Genuine.instDecidable (o : Offer) : Decidable (o.Genuine verify) :=
  inferInstanceAs (Decidable (_ → _))

end Offer

variable (verify : List Char → Option (List Char))

def Handle.onPolicyContent (h : Handle) (o : Offer) : Option (Bool × Handle) :=
  if h.seqnr < o.outerNumber then
    if o.stored then h.updatePolicy (o.update verify) else some (false, h)
  else some (false, h)

structure Peered where
  handle : Handle
  enforced : List Nat

def Peered.step (s : Peered) (o : Offer) : Option Peered :=
  (s.handle.onPolicyContent verify o).map fun (ret, h) =>
    ⟨h, if ret then s.enforced ++ [o.signedNumber verify] else s.enforced⟩

variable {verify}

theorem updatePolicy_seqnr {h h' : Handle} (hu : h.updatePolicy u = some (ret, h')) :
    (ret = false ∧ h'.seqnr = h.seqnr) ∨
      (ret = true ∧ ∃ body, u.body = some body ∧ h'.seqnr = sequenceNumberOf (u.parsed body).1) := by
  unfold Handle.updatePolicy at hu
  split at hu
  · split at hu
    · cases hu
      exact .inl ⟨rfl, rfl⟩
    obtain ⟨⟨r, cache⟩, _, hr⟩ := Option.map_eq_some_iff.1 hu
    cases r with
    | false =>
      cases hr
      exact .inl ⟨rfl, rfl⟩
    | true =>
      cases hr
      exact .inr ⟨rfl, _, ‹_›, rfl⟩
  · cases hu
    exact .inl ⟨rfl, rfl⟩

theorem onPolicyContent_cases {h h' : Handle} (ho : h.onPolicyContent verify o = some (ret, h')) :
    (ret = false ∧ h'.seqnr = h.seqnr) ∨
      (ret = true ∧ h.seqnr < o.outerNumber ∧ (verify o.content).isSome ∧ h'.seqnr = o.signedNumber verify) := by
  unfold Handle.onPolicyContent at ho
  split at ho
  · split at ho
    · rcases updatePolicy_seqnr ho with hsame | ⟨hret, body, hbody, hseqnr⟩
      · exact .inl hsame
      · have hv : verify o.content = some body := hbody
        refine .inr ⟨hret, ‹_›, by rw [hv]; rfl, ?_⟩
        rw [hseqnr, Offer.signedNumber, hv]
    · cases ho
      exact .inl ⟨rfl, rfl⟩
  · cases ho
    exact .inl ⟨rfl, rfl⟩

/-- What was enforced has ever greater numbers, and the last of them is the published one. -/
def Peered.Ascending (start : Nat) (s : Peered) : Prop :=
  (start :: s.enforced).Pairwise (· < ·) ∧ (start :: s.enforced).getLast? = some s.handle.seqnr

theorem Peered.Ascending.step {s s' : Peered} (hs : s.Ascending start)
    (ho : o.Genuine verify) (hstep : s.step verify o = some s') : s'.Ascending start := by
  obtain ⟨⟨ret, h'⟩, hc, rfl⟩ := Option.map_eq_some_iff.1 hstep
  rcases onPolicyContent_cases hc with ⟨rfl, hseqnr⟩ | ⟨rfl, hlt, hsome, hseqnr⟩
  · refine ⟨hs.1, ?_⟩
    rw [hseqnr]
    exact hs.2
  have hgt : s.handle.seqnr < o.signedNumber verify := Nat.lt_of_lt_of_le hlt (ho hsome)
  refine ⟨?_, ?_⟩
  · -- every number enforced before is at most the published one
    have hle : ∀ n ∈ start :: s.enforced, n ≤ s.handle.seqnr := by
      intro n hn
      obtain ⟨pre, hpre⟩ := getLast?_eq_some_iff.1 hs.2
      have hsorted := hs.1
      rw [hpre] at hn hsorted
      rcases mem_append.1 hn with hn | hn
      · exact Nat.le_of_lt ((pairwise_append.1 hsorted).2.2 n hn _ (mem_singleton_self _))
      · exact Nat.le_of_eq (mem_singleton.1 hn)
    refine pairwise_append.2 ⟨hs.1, pairwise_singleton _ _, fun n hn m hm => ?_⟩
    rw [mem_singleton.1 hm]
    exact Nat.lt_of_le_of_lt (hle n hn) hgt
  · show ((start :: s.enforced) ++ [o.signedNumber verify]).getLast? = _
    rw [getLast?_concat, hseqnr]

/-- **No policy rollback while every content that verifies is genuine:** whatever is offered, the signed numbers of what
is enforced increase from the published one on, and the published number is the last of them. -/
theorem ascending_of_run {h : Handle} {os : List Offer} {s : Peered}
    (hr : Run (Peered.step verify) (fun _ o => o.Genuine verify) ⟨h, []⟩ os s) :
    s.Ascending h.seqnr ∧ h.seqnr ≤ s.handle.seqnr := by
  have hasc : s.Ascending h.seqnr := hr.invariant (fun _ s => s.Ascending h.seqnr)
    ⟨pairwise_singleton _ _, rfl⟩ fun _ _ _ _ hs ho hstep => hs.step ho hstep
  refine ⟨hasc, ?_⟩
  have hlast := mem_of_getLast? hasc.2
  rcases mem_cons.1 hlast with heq | hmem
  · exact Nat.le_of_eq heq.symm
  · exact Nat.le_of_lt (rel_of_pairwise_cons hasc.1 hmem)

def Offer.ofContent (content : List Char) : Offer := ⟨content, [], true, true, [], true⟩

def policyThree : List Char := "[meta]\nseqnr=3\n[uid:1]\na=rw\n".toList

def policyFive : List Char := "[meta]\nseqnr=5\n[uid:1]\na=r\n".toList

def bothSigned (content : List Char) : Option (List Char) := [policyThree, policyFive].find? (·.isPrefixOf content)

theorem ascending_three_five :
    ((exec (Peered.step bothSigned) (fun _ o => o.Genuine bothSigned) ⟨.initial, []⟩
      [.ofContent policyThree, .ofContent policyFive, .ofContent policyThree]).get (by decide)).Ascending
      Handle.initial.seqnr :=
  (ascending_of_run (Run.of_isSome _)).1

/-- **The old policy is back.**  It was replaced by number 5, but with another number behind it, it is taken again. -/
theorem rolled_back :
    ∃ os s, Run (Peered.step bothSigned) (fun _ _ => True) ⟨.initial, []⟩ os s ∧ s.enforced = [5, 3] ∧
      s.handle.seqnr = 3 ∧ ¬ s.Ascending 0 := by
  refine ⟨[.ofContent policyFive, .ofContent (policyThree ++ "[meta]\nseqnr=9\n".toList)], _,
    Run.of_isSome, by decide, by decide, ?_⟩
  rintro ⟨hsorted, -⟩
  revert hsorted
  decide

/-- A content that is not genuine is enforced over its own number, if it can be enforced at all. -/
theorem enforced_again {cache cache' : Cache} (hv : verify o.content = some body)
    (hbad : ¬ o.Genuine verify) (hstored : o.stored = true) (hcred : o.credentials = true)
    (henf : cache.enforcePolicy ((o.update verify).parsed body) o.addDomain = some (true, cache')) :
    ∃ h h' : Handle, h.onPolicyContent verify o = some (true, h') ∧ h.seqnr = o.signedNumber verify ∧
      h'.seqnr = o.signedNumber verify := by
  have hlt : o.signedNumber verify < o.outerNumber := by
    by_contra hle
    exact hbad fun _ => Nat.le_of_not_lt hle
  have hnumber : sequenceNumberOf ((o.update verify).parsed body).1 = o.signedNumber verify := by
    rw [Offer.signedNumber, hv]
  refine ⟨⟨cache, o.signedNumber verify, []⟩, ⟨cache', o.signedNumber verify, o.content⟩, ?_, rfl, rfl⟩
  unfold Handle.onPolicyContent Handle.updatePolicy
  rw [if_pos hlt, if_pos hstored, if_pos (show (o.update verify).credentials = true from hcred),
    show (o.update verify).body = some body from hv]
  simp only [henf, hnumber, show (o.update verify).addDomain = o.addDomain from rfl]
  rfl

end Qeo.Security
