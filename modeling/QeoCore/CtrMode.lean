import Mathlib.Data.List.Basic
/-!
# CtrMode — counter mode over a text that comes in pieces

Byte `n` of the text is combined with byte `n` of a key stream `ks`, made in blocks of sixteen bytes; `started m n`
lists the blocks that have to be made for `n` bytes when `m` bytes went before.
-/
namespace CtrMode

open List

variable {ks : Nat → UInt8}

def xorFrom (ks : Nat → UInt8) : Nat → List UInt8 → List UInt8
  | _, [] => []
  | n, b :: bs => (b ^^^ ks n) :: xorFrom ks (n + 1) bs

@[simp] theorem length_xorFrom (n : Nat) (bs : List UInt8) : (xorFrom ks n bs).length = bs.length := by
  induction bs generalizing n with
  | nil => rfl
  | cons b bs ih => simp [xorFrom, ih]

theorem xorFrom_append (n : Nat) (as bs : List UInt8) :
    xorFrom ks n (as ++ bs) = xorFrom ks n as ++ xorFrom ks (n + as.length) bs := by
  induction as generalizing n with
  | nil => rfl
  | cons a as ih => rw [cons_append, xorFrom, ih, xorFrom, cons_append, length_cons, Nat.add_assoc, Nat.add_comm 1]

theorem xorFrom_xorFrom (n : Nat) (bs : List UInt8) : xorFrom ks n (xorFrom ks n bs) = bs := by
  induction bs generalizing n with
  | nil => rfl
  | cons b bs ih => rw [xorFrom, xorFrom, ih, UInt8.xor_assoc, UInt8.xor_self, UInt8.xor_zero]

def blockCount (n : Nat) : Nat := (n + 15) / 16

theorem blockCount_mono (h : m ≤ n) : blockCount m ≤ blockCount n :=
  Nat.div_le_div_right (Nat.add_le_add_right h 15)

def started (m n : Nat) : List Nat := range' (blockCount m) (blockCount (m + n) - blockCount m)

theorem started_append (m n k : Nat) : started m n ++ started (m + n) k = started m (n + k) := by
  have h1 := blockCount_mono (Nat.le_add_right m n)
  have h2 := blockCount_mono (Nat.le_add_right (m + n) k)
  have hjoin := @List.range'_append_1 (blockCount m) (blockCount (m + n) - blockCount m)
    (blockCount (m + n + k) - blockCount (m + n))
  rw [Nat.add_sub_cancel' h1] at hjoin
  unfold started
  rw [hjoin, ← Nat.add_assoc]
  congr 1
  omega

theorem started_zero (n : Nat) : started 0 n = range (blockCount n) := by
  rw [started, Nat.zero_add, range_eq_range']
  rfl

end CtrMode
