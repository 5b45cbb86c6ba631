import Mathlib.Algebra.Group.Nat.Defs
import Mathlib.Data.List.Basic
/-!
# InfoReply — what the decoders of an InfoReply touch (rtps_msg.c, rtps_fwd.c)

An InfoReply has a count of unicast locators and the locators, and with `SMF_MULTICAST` the same for multicast.  The
length that it needs is computed in 32 bits, from counts that may be anything.
-/
namespace Qeo.Rtps

/-- An InfoReply as received on a little-endian machine: `data` goes on behind its end, and `size_t` has `sizeBits`. -/
structure InfoReply where
  length : UInt16
  multicast : Bool
  swap : Bool
  data : Nat → UInt8
  sizeBits : Nat

/-- What is read, at which offsets, and what is written where in `reply_locs`: pairs are a place and a number of
locators. -/
structure Decoded where
  counts : List Nat
  uclocs : Nat × Nat := (0, 0)
  mclocs : Nat × Nat := (0, 0)
  stored : Nat × Nat := (0, 0)
  storedMc : Nat × Nat := (0, 0)
  swappedMc : Nat × Nat := (0, 0)
  nUcReplies : Nat := 0
  nMcReplies : Nat := 0

def msgLocatorSize : Nat := 24

def maxLlocs : Nat := 16

namespace InfoReply

variable (r : InfoReply)

def word (ofs : Nat) : Nat :=
  let b (i : Nat) : Nat := (r.data (ofs + if r.swap then 3 - i else i)).toNat
  b 0 + 2 ^ 8 * b 1 + 2 ^ 16 * b 2 + 2 ^ 24 * b 3

def mcofs : Nat := (4 + r.word 0 * msgLocatorSize) % 2 ^ 32

/-- The counts that both functions read, and the numbers of locators if the length is accepted. -/
def counts : List Nat × Option (Nat × Nat) :=
  if r.length.toNat < 4 then ([], none)
  else if r.multicast then
    if r.length.toNat < (r.mcofs + 4) % 2 ^ r.sizeBits then ([0], none)
    else
      let nmclocs := r.word r.mcofs
      let minsize := (r.mcofs + 4 + nmclocs * msgLocatorSize) % 2 ^ 32
      ([0, r.mcofs], if r.length.toNat < minsize then none else some (r.word 0, nmclocs))
  else ([0], if r.length.toNat < r.mcofs then none else some (r.word 0, 0))

def submsgRxInfoReply : Decoded :=
  match r.counts with
  | (counts, none) => { counts }
  | (counts, some (nuclocs, nmclocs)) =>
    let n := min nuclocs maxLlocs
    let nmclocs := min nmclocs ((maxLlocs + 2 ^ 32 - nuclocs) % 2 ^ 32)
    let place := nuclocs * msgLocatorSize % 2 ^ 32
    { counts
      uclocs := (4, n)
      mclocs := (r.mcofs + 4, nmclocs)
      stored := (0, n)
      storedMc := (place, nmclocs)
      -- The loop that swaps them goes by the number of the others.
      swappedMc := (place, if r.swap ∧ nmclocs ≠ 0 then n else 0)
      nUcReplies := n
      nMcReplies := nmclocs }

def fwdLearnInfoReply : Decoded :=
  match r.counts with
  | (counts, none) => { counts }
  | (counts, some (nuclocs, nmclocs)) =>
    { counts, uclocs := (4, nuclocs), mclocs := ((r.mcofs + 4) % 2 ^ 32, nmclocs) }

end InfoReply

def Inside (size : Nat) (p : Nat × Nat) : Prop := p.2 = 0 ∨ p.1 + p.2 * msgLocatorSize ≤ size

structure Decoded.Confined (d : Decoded) (length : Nat) : Prop where
  counts : ∀ ofs ∈ d.counts, ofs + 4 ≤ length
  uclocs : Inside length d.uclocs
  mclocs : Inside length d.mclocs
  number : d.uclocs.2 + d.mclocs.2 ≤ length / msgLocatorSize
  stored : Inside (maxLlocs * msgLocatorSize) d.stored
  storedMc : Inside (maxLlocs * msgLocatorSize) d.storedMc
  swappedMc : Inside (maxLlocs * msgLocatorSize) d.swappedMc
  replies : d.nUcReplies + d.nMcReplies ≤ maxLlocs

/-- The counts fit the length as they are, not only modulo 2^32, and where there are multicast locators the others leave
room for them, and for themselves once more if bytes are swapped. -/
def InfoReply.Sound (r : InfoReply) : Prop :=
  (∀ ofs ∈ r.counts.1, ofs + 4 ≤ r.length.toNat) ∧ ∀ n ∈ r.counts.2,
    4 + n.1 * msgLocatorSize + (if r.multicast then 4 + n.2 * msgLocatorSize else 0) ≤ r.length.toNat ∧
      (n.2 ≠ 0 → n.1 ≤ maxLlocs ∧ (r.swap → n.1 < maxLlocs → n.1 + n.1 ≤ maxLlocs))

theorem Decoded.Confined.rejected (h : ∀ ofs ∈ cs, ofs + 4 ≤ length) : Confined { counts := cs } length :=
  ⟨h, .inl rfl, .inl rfl, Nat.zero_le _, .inl rfl, .inl rfl, .inl rfl, Nat.zero_le _⟩

theorem InfoReply.of_counts {r : InfoReply} (h : r.counts = (cs, some (n, m))) :
    n = r.word 0 ∧ 0 ∈ cs ∧ if r.multicast then r.mcofs ∈ cs else m = 0 := by
  unfold counts at h
  split_ifs at h ⊢ <;> grind

/-- **An InfoReply is confined if and only if its counts fit.** -/
theorem confined_iff (r : InfoReply) : r.submsgRxInfoReply.Confined r.length.toNat ∧
    r.fwdLearnInfoReply.Confined r.length.toNat ↔ r.Sound := by
  have hlen := r.length.toNat_lt
  unfold InfoReply.submsgRxInfoReply InfoReply.fwdLearnInfoReply InfoReply.Sound
  rcases hc : r.counts with ⟨cs, _ | ⟨n, m⟩⟩
  · exact ⟨fun h => ⟨h.1.counts, nofun⟩, fun h => ⟨.rejected h.1, .rejected h.1⟩⟩
  -- From here on only the two counts and the offset of the second matter.
  obtain ⟨rfl, h0, hmc⟩ := InfoReply.of_counts hc
  have hofs : r.mcofs = (4 + r.word 0 * 24) % 2 ^ 32 := rfl
  generalize r.word 0 = n at *
  generalize r.mcofs = ofs at *
  constructor
  · rintro ⟨hr, hf⟩
    refine ⟨hf.counts, ?_⟩
    rintro _ ⟨⟩
    have h0 := hf.counts 0 h0
    have huc := hf.uclocs
    have hmcl := hf.mclocs
    have hnum := hr.replies
    have hswap := hr.swappedMc
    dsimp only [Inside, msgLocatorSize, maxLlocs] at *
    refine ⟨?_, fun hne => ⟨by omega, fun hsw hlt => ?_⟩⟩
    · split_ifs at hmc ⊢
      · have := hf.counts ofs hmc
        omega
      · omega
    · rw [if_pos ⟨hsw, by omega⟩, Nat.mod_eq_of_lt (by omega)] at hswap
      omega
  · rintro ⟨hcs, hs⟩
    obtain ⟨hfit, hroom⟩ := hs (n, m) rfl
    dsimp only [msgLocatorSize, maxLlocs] at *
    have hplace : n * 24 % 2 ^ 32 = n * 24 := Nat.mod_eq_of_lt (by omega)
    have hm : m = 0 ∨ ofs + 4 + m * 24 ≤ r.length.toNat := by
      split_ifs at hmc hfit <;> omega
    constructor <;> constructor
    case left.swappedMc =>
      dsimp only [Inside, msgLocatorSize, maxLlocs]
      rw [hplace]
      split_ifs with hsw
      · have := (hroom (by omega)).2 hsw.1
        omega
      · exact .inl rfl
    all_goals first
      | exact hcs
      | dsimp only [Inside, msgLocatorSize, maxLlocs]
        omega

def wrapped : InfoReply := ⟨12, false, false, fun i => [0xab, 0xaa, 0xaa, 0x0a].getD i 0, 32⟩

def crowded : InfoReply := ⟨500, true, false, fun i => if i = 0 then 17 else if i = 412 then 1 else 0, 32⟩

def swapped : InfoReply := ⟨500, true, true, fun i => if i = 3 then 9 else if i = 223 then 1 else 0, 32⟩

/-- **Three InfoReplies that are not confined**: one that needs 12 bytes modulo 2^32, one with 17 unicast locators and
one for multicast, which goes behind `reply_locs`, and one of the other byte order with 9 and 1, where the 9 are swapped
at the place of the 1. -/
theorem not_confined : (wrapped.submsgRxInfoReply.uclocs = (4, 16) ∧
      ¬ wrapped.submsgRxInfoReply.Confined wrapped.length.toNat) ∧
    (crowded.submsgRxInfoReply.storedMc = (408, 1) ∧ ¬ crowded.submsgRxInfoReply.Confined crowded.length.toNat) ∧
    swapped.submsgRxInfoReply.swappedMc = (216, 9) ∧ ¬ swapped.submsgRxInfoReply.Confined swapped.length.toNat := by
  refine ⟨⟨by decide, fun h => ?_⟩, ⟨by decide, fun h => ?_⟩, by decide, fun h => ?_⟩
  · exact absurd h.number (by decide)
  · exact absurd h.replies (by decide)
  · rcases h.swappedMc with h | h <;> revert h <;> decide

end Qeo.Rtps
