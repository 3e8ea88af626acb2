import Mathlib.Algebra.Group.Nat.Defs
import Mathlib.Algebra.Ring.Int.Defs
import Mathlib.Data.List.Basic

/-!
# CRC-32, and numbers in little-endian bytes

* `crc32` -- the CRC-32 of zlib, bit by bit: polynomial `0xEDB88320`, inverted on the way in and out;
* `crc32_append` -- which is what makes it chain;
* `le`, `leBytes`, `le_leBytes` -- little-endian bytes read and written.
-/

namespace P4Linux

/-! ## 1. CRC-32 -/

def crcPoly : BitVec 32 := 0xEDB88320

def crcBit (c : BitVec 32) : BitVec 32 := if c.getLsbD 0 then (c >>> 1) ^^^ crcPoly else c >>> 1

def crcByte (c : BitVec 32) (b : UInt8) : BitVec 32 :=
  crcBit (crcBit (crcBit (crcBit (crcBit (crcBit (crcBit (crcBit (c ^^^ b.toBitVec.setWidth 32))))))))

/-- `crc32(data, value)`. -/
def crc32 (value : BitVec 32) (data : List UInt8) : BitVec 32 := ~~~ (data.foldl crcByte (~~~ value))

@[simp] theorem crc32_nil (value : BitVec 32) : crc32 value [] = value := by
  show ~~~ (~~~ value) = value
  rw [BitVec.not_not]

/-- **Chaining.** -/
theorem crc32_append (value : BitVec 32) (a b : List UInt8) :
    crc32 value (a ++ b) = crc32 (crc32 value a) b := by
  unfold crc32
  rw [List.foldl_append, BitVec.not_not]

/-- The check value of CRC-32: the digits 1 to 9. -/
example : crc32 0 [49, 50, 51, 52, 53, 54, 55, 56, 57] = 0xCBF43926 := by decide +kernel

/-! ## 2. Little-endian numbers -/

def le (l : List UInt8) : Nat := l.foldr (fun b n => b.toNat + 256 * n) 0

def leBytes : Nat → Nat → List UInt8
  | 0, _ => []
  | n + 1, k => UInt8.ofNat (k % 256) :: leBytes n (k / 256)

@[simp] theorem length_leBytes (n k : Nat) : (leBytes n k).length = n := by
  induction n generalizing k with
  | zero => rfl
  | succ n ih => rw [leBytes, List.length_cons, ih]

theorem le_lt (l : List UInt8) : le l < 256 ^ l.length := by
  induction l with
  | nil => exact Nat.one_pos
  | cons b l ih =>
    have hb := b.toNat_lt
    show b.toNat + 256 * le l < 256 ^ (l.length + 1)
    rw [Nat.pow_succ]
    omega

theorem le_leBytes {n k : Nat} (h : k < 256 ^ n) : le (leBytes n k) = k := by
  induction n generalizing k with
  | zero =>
    obtain rfl : k = 0 := Nat.lt_one_iff.mp h
    rfl
  | succ n ih =>
    rw [Nat.pow_succ, Nat.mul_comm] at h
    show (UInt8.ofNat (k % 256)).toNat + 256 * le (leBytes n (k / 256)) = k
    rw [ih (Nat.div_lt_of_lt_mul h), UInt8.toNat_ofNat', Nat.mod_mod_of_dvd k (by decide)]
    exact Nat.mod_add_div k 256

end P4Linux
