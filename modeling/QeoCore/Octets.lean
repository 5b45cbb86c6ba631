import Mathlib.Algebra.Group.Nat.Defs
import Mathlib.Data.List.Basic
/-!
# Octets — words in memory, and stores into it

A 32-bit word is four bytes in one of two orders.  Reading with the order it was written with gives the word back
(`get32_put32`).

`overwrite` is a store of some bytes at an offset of a memory area.
-/
namespace Octets

open List

inductive Endian
  | big
  | little
  deriving DecidableEq

def Endian.other : Endian → Endian
  | .big => .little
  | .little => .big

def byteAt (w : UInt32) (k : Nat) : UInt8 := UInt8.ofNat (w.toNat / 256 ^ k)

def word (a b c d : UInt8) : UInt32 :=
  UInt32.ofNat (a.toNat + 256 * b.toNat + 65536 * c.toNat + 16777216 * d.toNat)

def put32 : Endian → UInt32 → List UInt8
  | .little, w => [byteAt w 0, byteAt w 1, byteAt w 2, byteAt w 3]
  | .big, w => [byteAt w 3, byteAt w 2, byteAt w 1, byteAt w 0]

def get32 : Endian → List UInt8 → UInt32
  | .little, a :: b :: c :: d :: _ => word a b c d
  | .big, a :: b :: c :: d :: _ => word d c b a
  | _, _ => 0

@[simp] theorem length_put32 (o : Endian) (w : UInt32) : (put32 o w).length = 4 := by
  cases o <;> rfl

theorem word_byteAt (w : UInt32) : word (byteAt w 0) (byteAt w 1) (byteAt w 2) (byteAt w 3) = w := by
  have hw : w.toNat < 4294967296 := w.toNat_lt
  apply UInt32.toNat_inj.1
  simp only [word, byteAt, UInt8.toNat_ofNat', UInt32.toNat_ofNat']
  omega

@[simp] theorem get32_put32 (o : Endian) (w : UInt32) (rest : List UInt8) : get32 o (put32 o w ++ rest) = w := by
  cases o <;> exact word_byteAt w

theorem get32_put32' (o : Endian) (w : UInt32) : get32 o (put32 o w) = w := by
  cases o <;> exact word_byteAt w

def beNat (b : List UInt8) : Nat := b.foldl (fun n x => 256 * n + x.toNat) 0

section
variable {α : Type*}

def overwrite (mem : List α) (off : Nat) (src : List α) : List α :=
  mem.take off ++ src ++ mem.drop (off + src.length)

theorem length_overwrite {mem : List α} (h : off + src.length ≤ mem.length) :
    (overwrite mem off src).length = mem.length := by
  simp only [overwrite, length_append, length_take, length_drop]
  omega

theorem overwrite_overwrite {mem : List α} {off : Nat} {a b : List α} (h : off + a.length ≤ mem.length) :
    overwrite (overwrite mem off a) (off + a.length) b = overwrite mem off (a ++ b) := by
  have hoff : (mem.take off).length = off := by rw [length_take]; omega
  have hfront : (mem.take off ++ a).length = off + a.length := by rw [length_append, hoff]
  have hbehind : (mem.take off ++ a ++ mem.drop (off + a.length)).drop (off + a.length + b.length)
      = mem.drop (off + (a ++ b).length) := by
    rw [← drop_drop, drop_left' hfront, drop_drop, length_append, Nat.add_assoc]
  unfold overwrite
  rw [hbehind, take_left' hfront, append_assoc (mem.take off)]

theorem take_drop_overwrite {mem : List α} {off : Nat} {src : List α} (h : off ≤ mem.length) :
    ((overwrite mem off src).drop off).take src.length = src := by
  have hoff : (mem.take off).length = off := by rw [length_take]; omega
  rw [overwrite, append_assoc, drop_left' hoff, take_left]

end

end Octets
