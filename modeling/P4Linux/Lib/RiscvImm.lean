import Mathlib.Data.BitVec
import Mathlib.Tactic.IntervalCases

/-!
# The immediates of 32-bit RISC-V instructions

What an instruction word says, bit by bit, as the ISA manual lays the immediates out:

* `uImm` -- bits 31:12 of `auipc` and `lui`, already shifted into place;
* `iImm` -- bits 31:20 of `addi`, `jalr`, `lw`, sign-extended;
* `sImm` -- bits 31:25 and 11:7 of a store, sign-extended;
* `bImm`, `jImm` -- the scattered even distances of a branch and of `jal`, sign-extended;
* `keepU`, `keepI`, `keepS` -- the bits an immediate does NOT occupy (opcode, funct, registers).

`hi_add_lo` is the arithmetic of an upper/lower pair: the upper half is rounded, because the
lower half is added back as a SIGNED 12-bit number.
-/

namespace P4Linux.Rv

def uImm (x : BitVec 32) : BitVec 32 := x &&& 0xfffff000#32

def iImm (x : BitVec 32) : BitVec 32 := (x.extractLsb' 20 12).signExtend 32

def sImm (x : BitVec 32) : BitVec 32 := (x.extractLsb' 25 7 ++ x.extractLsb' 7 5).signExtend 32

/-- Bits 12, 11, 10:5 and 4:1 of a distance, in bits 31, 7, 30:25 and 11:8. -/
def bImm (x : BitVec 32) : BitVec 32 :=
  (x.extractLsb' 31 1 ++ x.extractLsb' 7 1 ++ x.extractLsb' 25 6 ++ x.extractLsb' 8 4 ++ 0#1).signExtend 32

/-- Bits 20, 19:12, 11 and 10:1 of a distance, in bits 31, 19:12, 20 and 30:21. -/
def jImm (x : BitVec 32) : BitVec 32 :=
  (x.extractLsb' 31 1 ++ x.extractLsb' 12 8 ++ x.extractLsb' 20 1 ++ x.extractLsb' 21 10 ++ 0#1).signExtend 32

def keepU : BitVec 32 := 0x00000fff#32
def keepI : BitVec 32 := 0x000fffff#32
def keepS : BitVec 32 := 0x01fff07f#32

/-- The rounded upper 20 bits of a distance, in place. -/
def hiPart (v : BitVec 32) : BitVec 32 := ((v + 0x800#32) >>> 12) <<< 12

/-- What is left of a distance once its rounded upper part is taken off. -/
def loPart (v : BitVec 32) : BitVec 32 := v - hiPart v

theorem hi_add_lo (v : BitVec 32) : hiPart v + loPart v = v := by
  unfold loPart
  rw [BitVec.add_comm, BitVec.sub_add_cancel]

/-- The lower half, once the upper one is known. -/
theorem eq_loPart {u l v : BitVec 32} (h : u + l = v) (hu : u = hiPart v) : l = loPart v := by
  rw [loPart, ← hu, ← h, BitVec.add_comm, BitVec.add_sub_cancel]

/-- **The lower part is a signed 12-bit number**: its 12 low bits carry all of it. -/
theorem signExtend_loPart (v : BitVec 32) : ((loPart v).setWidth 12).signExtend 32 = loPart v := by
  apply BitVec.eq_of_toInt_eq
  have hv := v.isLt
  have hlo : (loPart v).toNat = (v.toNat + 4294967296 - (v.toNat + 2048) % 4294967296 / 4096 * 4096)
      % 4294967296 := by
    simp only [loPart, hiPart, BitVec.toNat_sub, BitVec.toNat_shiftLeft, BitVec.toNat_ushiftRight,
      BitVec.toNat_add, BitVec.toNat_ofNat, Nat.shiftLeft_eq, Nat.shiftRight_eq_div_pow]
    omega
  rw [BitVec.toInt_signExtend_of_le (by omega), BitVec.toInt_eq_toNat_cond,
    BitVec.toInt_eq_toNat_cond, BitVec.toNat_setWidth, hlo]
  split <;> split <;> omega

end P4Linux.Rv
