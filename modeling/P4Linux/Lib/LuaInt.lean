import Mathlib.Data.BitVec
import Mathlib.Tactic.IntervalCases

/-!
# Lua 5.4 integers of a chosen width

Lua's integer subtype wraps at the width it is built with: 64 bits by default, 32 bits under
`LUA_32BITS`. Both are read here as `BitVec w`:

* `+`, `-`, `*`, `&`, `|`, `<<` are `BitVec`'s own; `>>` is Lua's LOGICAL right shift (`>>>`);
  comparisons are signed (`BitVec.slt`, `BitVec.sle`); a literal wraps (`BitVec.ofNat w`);
* `idiv` is `//`, floor division;
* `byteAt` and `subFrom` are `s:byte(i)` and `s:sub(i)` with their negative positions, which
  count from the END of the string.

`low` is the 32-bit reading of an integer of any width; §3 says which operations it commutes
with. That is what makes one computation agree across widths.
-/

namespace P4Linux.Lua

/-! ## 1. Arithmetic -/

/-- Lua's `a // b` (floor division; the caller has `b ≠ 0`). -/
def idiv {w : Nat} (a b : BitVec w) : BitVec w := BitVec.ofInt w (a.toInt.fdiv b.toInt)

/-- The longest string the interpreter can hold: `LUA_MAXINTEGER` bytes. -/
def maxString (w : Nat) : Nat := 2 ^ (w - 1) - 1

/-! ## 2. Strings -/

/-- `s:byte(i)` for one position: `none` where Lua returns no value. -/
def byteAt {w : Nat} (s : List UInt8) (i : BitVec w) : Option UInt8 :=
  if 0 < i.toInt then s[i.toNat - 1]?
  else if i.toInt < 0 ∧ (-i.toInt).toNat ≤ s.length then s[s.length - (-i.toInt).toNat]?
  else none

/-- `s:sub(i)`: from position `i` to the end. -/
def subFrom {w : Nat} (s : List UInt8) (i : BitVec w) : List UInt8 :=
  if 0 < i.toInt then s.drop (i.toNat - 1)
  else if i.toInt < 0 ∧ (-i.toInt).toNat ≤ s.length then s.drop (s.length - (-i.toInt).toNat)
  else s

/-- `s:match("^[^%z]*")`: the bytes before the first NUL. -/
def uptoNul (s : List UInt8) : List UInt8 := s.takeWhile (· ≠ 0)

theorem byteAt_of_pos {w : Nat} (s : List UInt8) {i : BitVec w} (h : 0 < i.toInt) :
    byteAt s i = s[i.toNat - 1]? := if_pos h

/-! ## 3. The low 32 bits -/

/-- The 32-bit reading of an integer. -/
def low {w : Nat} (x : BitVec w) : BitVec 32 := x.setWidth 32

section Low

variable {w : Nat} (hw : 32 ≤ w)
include hw

theorem low_add (x y : BitVec w) : low (x + y) = low x + low y :=
  BitVec.setWidth_add x y hw

theorem low_sub (x y : BitVec w) : low (x - y) = low x - low y := by
  unfold low
  rw [BitVec.sub_eq_add_neg, BitVec.setWidth_add _ _ hw, BitVec.setWidth_neg_of_le hw,
    BitVec.sub_eq_add_neg]

theorem low_mul (x y : BitVec w) : low (x * y) = low x * low y :=
  BitVec.setWidth_mul x y hw

theorem low_shl (x : BitVec w) (n : Nat) : low (x <<< n) = low x <<< n :=
  BitVec.setWidth_shiftLeft_of_le hw

omit hw in
/-- A logical right shift brings high bits down: below a mask that drops them, it agrees. -/
theorem low_shr_and (x m : BitVec w) (n : Nat) (hm : (low m).toNat < 2 ^ (32 - n)) :
    low ((x >>> n) &&& m) = (low x >>> n) &&& low m := by
  apply BitVec.eq_of_getLsbD_eq
  intro i hi
  simp only [low, BitVec.getLsbD_setWidth, BitVec.getLsbD_and, BitVec.getLsbD_ushiftRight, hi,
    decide_true, Bool.true_and]
  by_cases hin : n + i < 32
  · simp [hin]
  · have h0 : (low m).getLsbD i = false :=
      Nat.testBit_lt_two_pow (hm.trans_le (Nat.pow_le_pow_right (by omega) (by omega)))
    simp only [low, BitVec.getLsbD_setWidth, hi, decide_true, Bool.true_and] at h0
    simp [h0]

/-- Rounding down to a multiple of `2 ^ n` by shifting right and back keeps every bit above. -/
theorem low_shr_shl (x : BitVec w) (n : Nat) : low ((x >>> n) <<< n) = (low x >>> n) <<< n := by
  apply BitVec.eq_of_getLsbD_eq
  intro i hi
  have hiw : i < w := by omega
  simp only [low, BitVec.getLsbD_setWidth, BitVec.getLsbD_shiftLeft, BitVec.getLsbD_ushiftRight, hi,
    hiw, decide_true, Bool.true_and]
  by_cases hin : i < n
  · simp [hin]
  · have e : n + (i - n) = i := by omega
    simp [hin, e, hi]

end Low

theorem low_and {w : Nat} (x y : BitVec w) : low (x &&& y) = low x &&& low y :=
  BitVec.setWidth_and

theorem low_or {w : Nat} (x y : BitVec w) : low (x ||| y) = low x ||| low y :=
  BitVec.setWidth_or

theorem toNat_low {w : Nat} (x : BitVec w) : (low x).toNat = x.toNat % 2 ^ 32 :=
  BitVec.toNat_setWidth 32 x

/-- An unsigned word is its own low word. -/
theorem toNat_low_of_lt {w : Nat} {x : BitVec w} (h : x.toNat < 2 ^ 32) : (low x).toNat = x.toNat := by
  rw [toNat_low, Nat.mod_eq_of_lt h]

theorem low_inj {w : Nat} {x y : BitVec w} (hx : x.toNat < 2 ^ 32) (hy : y.toNat < 2 ^ 32) :
    low x = low y ↔ x = y := by
  constructor
  · intro h
    apply BitVec.eq_of_toNat_eq
    rw [← toNat_low_of_lt hx, ← toNat_low_of_lt hy, h]
  · exact congrArg low

/-- Below the sign bit of the low word, signed and unsigned reading agree. -/
theorem toInt_low {w : Nat} {x : BitVec w} (h : x.toNat < 2 ^ 31) : (low x).toInt = x.toNat := by
  have e := toNat_low_of_lt (h.trans (by norm_num : 2 ^ 31 < 2 ^ 32))
  rw [BitVec.toInt_eq_toNat_of_lt (by omega), e]

@[simp] theorem low_32 (x : BitVec 32) : low x = x := BitVec.setWidth_eq x

theorem low_ofNat {w : Nat} (hw : 32 ≤ w) (n : Nat) : low (BitVec.ofNat w n) = BitVec.ofNat 32 n := by
  apply BitVec.eq_of_toNat_eq
  simp only [low, BitVec.toNat_setWidth, BitVec.toNat_ofNat]
  exact Nat.mod_mod_of_dvd n (Nat.pow_dvd_pow 2 hw)

/-- The low byte of a low word is the low byte. -/
theorem low_byte {w : Nat} (x : BitVec w) : (low x).setWidth 8 = x.setWidth 8 :=
  BitVec.setWidth_setWidth_of_le x (by omega)

/-- Byte `k` of a word is byte `k` of its low word, for `k < 4`. -/
theorem low_shr_byte {w : Nat} (x : BitVec w) (n : Nat) (hn : n + 8 ≤ 32) :
    (low x >>> n).setWidth 8 = (x >>> n).setWidth 8 := by
  apply BitVec.eq_of_getLsbD_eq
  intro i hi
  have h : n + i < 32 := by omega
  simp [low, hi, h]

end P4Linux.Lua
