import P4Linux.Lib.Outcome
import P4Linux.Lib.RiscvImm
import P4Linux.Mkflt.Link

/-!
# Words of the image and the instruction fields

The script works on Lua integers, the machine on 32-bit words.

* `le32`, `fileWord` -- a word the way the machine reads it, out of four bytes of a file;
* `imageWord`, `imageWord_wr32` -- `rd32` and `wr32` on the image are that word up to `low`;
* `Field` -- the keys of an instruction field, and that a write leaves the others alone (`wr32_other`);
* `uImm_putU`, `iImm_putI`, `sImm_putS` -- the encoders read back with the decoders of
  `Lib/RiscvImm.lean`: the immediate is the value's;
* `keepU_putU`, `keepI_putI`, … -- and every other bit is the old word's;
* `uImm_add_iImm`, `uImm_add_sImm` -- an upper and a lower half add up to the number they were cut from.
-/

namespace P4Linux.Mkflt

open Lua Rv

variable {w : Nat}

/-! ## 1. Words in files -/

/-- Four bytes as the little-endian word the machine loads. -/
def le32 (b0 b1 b2 b3 : UInt8) : BitVec 32 :=
  b3.toBitVec ++ b2.toBitVec ++ b1.toBitVec ++ b0.toBitVec

/-- The word at byte `off` of a file. -/
def fileWord (f : List UInt8) (off : Nat) : Option (BitVec 32) := do
  let b0 ← f[off]?
  let b1 ← f[off + 1]?
  let b2 ← f[off + 2]?
  let b3 ← f[off + 3]?
  pure (le32 b0 b1 b2 b3)

/-- `|` and `<<` build the machine's word, zero-extended. -/
theorem join_num (hw : 32 ≤ w) (b0 b1 b2 b3 : UInt8) :
    (join (num b0) (num b1) (num b2) (num b3) : BitVec w) = (le32 b0 b1 b2 b3).setWidth w := by
  apply BitVec.eq_of_getLsbD_eq
  intro i hi
  simp only [join, num, le32, BitVec.getLsbD_or, BitVec.getLsbD_shiftLeft, BitVec.getLsbD_setWidth,
    BitVec.getLsbD_append, hi, decide_true, Bool.true_and]
  by_cases h32 : i < 32
  · have e0 : i < w := hi
    have e1 : i - 8 < w := by omega
    have e2 : i - 16 < w := by omega
    have e3 : i - 24 < w := by omega
    simp only [e1, e2, e3, decide_true, Bool.true_and]
    interval_cases i <;> simp
  · have hbyte : ∀ (b : UInt8) (j : Nat), 8 ≤ j → b.toBitVec.getLsbD j = false := fun b j hj =>
      BitVec.getLsbD_of_ge _ _ hj
    have n0 : ¬ i < 8 := by omega
    have n1 : ¬ i - 8 < 8 := by omega
    have n2 : ¬ i - 8 - 8 < 8 := by omega
    rw [hbyte b0 _ (by omega), hbyte b1 _ (by omega), hbyte b2 _ (by omega), hbyte b3 _ (by omega)]
    simp [n0, n1, n2, hbyte b3 (i - 8 - 8 - 8) (by omega)]

theorem low_join (hw : 32 ≤ w) (b0 b1 b2 b3 : UInt8) :
    low (join (num b0) (num b1) (num b2) (num b3) : BitVec w) = le32 b0 b1 b2 b3 := by
  rw [join_num hw, low, BitVec.setWidth_setWidth_of_le _ hw, BitVec.setWidth_eq]

/-- The bytes `wr32` stores are the bytes of the low word. -/
theorem le32_byteOf (v : BitVec w) :
    le32 (byteOf v 0) (byteOf v 1) (byteOf v 2) (byteOf v 3) = low v := by
  apply BitVec.eq_of_getLsbD_eq
  intro i hi
  simp only [le32, byteOf, low, BitVec.getLsbD_append, BitVec.getLsbD_setWidth,
    BitVec.getLsbD_ushiftRight]
  interval_cases i <;> simp

/-! ## 2. Words in the image -/

/-- The word at image offset `off`, as the machine will see it. -/
def imageWord (m : Image w) (off : BitVec w) : Option (BitVec 32) := do
  let b0 ← m (off + 1)
  let b1 ← m (off + 2)
  let b2 ← m (off + 3)
  let b3 ← m (off + 4)
  pure (le32 b0 b1 b2 b3)

theorem operand_ok {b : Option UInt8} {x : BitVec w} :
    operand b = .ok x ↔ ∃ c, b = some c ∧ num c = x := by
  cases b <;> simp [operand]

theorem num_lt (b : UInt8) : (num b : BitVec w).toNat < 2 ^ 8 := by
  unfold num
  rw [BitVec.toNat_setWidth]
  exact lt_of_le_of_lt (Nat.mod_le _ _) (BitVec.isLt _)

/-- A half-word and a word never use a bit above their own. -/
theorem u16_lt {d : List UInt8} {o x : BitVec w} (h : u16 d o = .ok x) :
    x.toNat < 2 ^ 16 := by
  simp only [u16, bind_ok, pure_ok, operand_ok] at h
  obtain ⟨_, ⟨b0, -, rfl⟩, _, ⟨b1, -, rfl⟩, rfl⟩ := h
  rw [BitVec.toNat_or]
  refine Nat.or_lt_two_pow ((num_lt b0).trans (by norm_num)) ?_
  have := num_lt (w := w) b1
  rw [BitVec.toNat_shiftLeft, Nat.shiftLeft_eq]
  exact lt_of_le_of_lt (Nat.mod_le _ _) (by omega)

theorem u32_lt (hw : 32 ≤ w) {d : List UInt8} {o x : BitVec w} (h : u32 d o = .ok x) :
    x.toNat < 2 ^ 32 := by
  simp only [u32, bind_ok, pure_ok, operand_ok] at h
  obtain ⟨_, ⟨b0, -, rfl⟩, _, ⟨b1, -, rfl⟩, _, ⟨b2, -, rfl⟩, _, ⟨b3, -, rfl⟩, rfl⟩ := h
  rw [join_num hw, BitVec.toNat_setWidth]
  exact lt_of_le_of_lt (Nat.mod_le _ _) (BitVec.isLt _)

/-- A word that could be read is the image word. -/
theorem imageWord_of_rd32 (hw : 32 ≤ w) {m : Image w} {off x : BitVec w} (h : rd32 m off = .ok x) :
    imageWord m off = some (low x) := by
  unfold rd32 at h
  obtain ⟨x0, h0, h⟩ := bind_ok.mp h
  obtain ⟨x1, h1, h⟩ := bind_ok.mp h
  obtain ⟨x2, h2, h⟩ := bind_ok.mp h
  obtain ⟨x3, h3, h⟩ := bind_ok.mp h
  obtain ⟨c0, e0, rfl⟩ := operand_ok.mp h0
  obtain ⟨c1, e1, rfl⟩ := operand_ok.mp h1
  obtain ⟨c2, e2, rfl⟩ := operand_ok.mp h2
  obtain ⟨c3, e3, rfl⟩ := operand_ok.mp h3
  rw [pure_ok] at h
  rw [← h, low_join hw]
  unfold imageWord
  rw [e0, e1, e2, e3]
  rfl

/-- The keys of the `n` bytes at image offset `off`. -/
def Field (off : BitVec w) (n : Nat) (k : BitVec w) : Prop := ∃ i < n, k = off + BitVec.ofNat w (i + 1)

theorem Field.mono {off k : BitVec w} {n n' : Nat} (h : Field off n k) (hn : n ≤ n') :
    Field off n' k := by
  obtain ⟨i, hi, e⟩ := h
  exact ⟨i, by omega, e⟩

theorem ofNat_zero_add (x : BitVec w) : x + BitVec.ofNat w 0 = x := BitVec.add_zero x

/-- Small offsets are different keys. -/
theorem add_ofNat_ne {a b : Nat} (x : BitVec w) (hab : a ≠ b) (ha : a < 2 ^ w) (hb : b < 2 ^ w) :
    x + BitVec.ofNat w a ≠ x + BitVec.ofNat w b := by
  intro e
  apply hab
  have h := congrArg BitVec.toNat ((BitVec.add_right_inj x).mp e)
  rwa [BitVec.toNat_ofNat, BitVec.toNat_ofNat, Nat.mod_eq_of_lt ha, Nat.mod_eq_of_lt hb] at h

theorem wr32_other {m : Image w} {off v k : BitVec w} (h : ¬ Field off 4 k) :
    wr32 m off v k = m k := by
  have h1 : k ≠ off + 1 := fun e => h ⟨0, by omega, e⟩
  have h2 : k ≠ off + 2 := fun e => h ⟨1, by omega, e⟩
  have h3 : k ≠ off + 3 := fun e => h ⟨2, by omega, e⟩
  have h4 : k ≠ off + 4 := fun e => h ⟨3, by omega, e⟩
  simp only [wr32, Image.set, h1, h2, h3, h4, if_false]

/-- **A word that was stored is the word that is there.** -/
theorem imageWord_wr32 (hw : 32 ≤ w) (m : Image w) (off v : BitVec w) :
    imageWord (wr32 m off v) off = some (low v) := by
  have hlt : 4 < 2 ^ w := lt_of_lt_of_le (by norm_num) (Nat.pow_le_pow_right (by omega) hw)
  have h12 : off + 1 ≠ off + 2 := add_ofNat_ne off (a := 1) (b := 2) (by omega) (by omega) (by omega)
  have h13 : off + 1 ≠ off + 3 := add_ofNat_ne off (a := 1) (b := 3) (by omega) (by omega) (by omega)
  have h14 : off + 1 ≠ off + 4 := add_ofNat_ne off (a := 1) (b := 4) (by omega) (by omega) (by omega)
  have h23 : off + 2 ≠ off + 3 := add_ofNat_ne off (a := 2) (b := 3) (by omega) (by omega) (by omega)
  have h24 : off + 2 ≠ off + 4 := add_ofNat_ne off (a := 2) (b := 4) (by omega) (by omega) (by omega)
  have h34 : off + 3 ≠ off + 4 := add_ofNat_ne off (a := 3) (b := 4) (by omega) (by omega) (by omega)
  unfold imageWord
  simp only [wr32, Image.set, h12, h13, h14, h23, h24, h34, if_true, if_false]
  exact congrArg some (le32_byteOf v)

/-- A word depends on its own four bytes. -/
theorem imageWord_congr {m m' : Image w} {off : BitVec w} (h : ∀ k, Field off 4 k → m' k = m k) :
    imageWord m' off = imageWord m off := by
  unfold imageWord
  rw [h (off + 1) ⟨0, by omega, rfl⟩, h (off + 2) ⟨1, by omega, rfl⟩, h (off + 3) ⟨2, by omega, rfl⟩,
    h (off + 4) ⟨3, by omega, rfl⟩]

/-! ## 3. The encoders, read back -/

section Encoders

variable (hw : 32 ≤ w) (x v : BitVec w)
include hw

theorem low_hi20_shl : low (hi20 v <<< 12) = hiPart (low v) := by
  unfold hi20
  rw [low_shr_shl hw, low_add hw, low_ofNat hw]
  rfl

theorem low_lo12 : low (lo12 v) = loPart (low v) := by
  unfold lo12 loPart
  rw [low_sub hw, low_hi20_shl hw]

/-- `put_u` with the rounded upper part: the immediate is that part. -/
theorem uImm_putU : uImm (low (putU x (hi20 v))) = hiPart (low v) := by
  have h : low (hi20 v &&& BitVec.ofNat w 0xfffff) = ((low v + 0x800#32) >>> 12) &&& 0xfffff#32 := by
    unfold hi20
    rw [low_shr_and (v + _) _ 12 (by rw [low_ofNat hw]; decide), low_add hw, low_ofNat hw,
      low_ofNat hw]
  unfold putU
  rw [low_or, low_and, low_shl hw, h, low_ofNat hw]
  unfold uImm hiPart
  generalize low v + 0x800#32 = y
  apply BitVec.eq_of_getLsbD_eq
  intro i hi
  interval_cases i <;> simp

theorem keepU_putU : low (putU x v) &&& keepU = low x &&& keepU := by
  unfold putU keepU
  rw [low_or, low_and, low_shl hw, low_ofNat hw]
  apply BitVec.eq_of_getLsbD_eq
  intro i hi
  interval_cases i <;> simp

theorem iImm_putI : iImm (low (putI x v)) = ((low v).setWidth 12).signExtend 32 := by
  have h : (low (putI x v)).extractLsb' 20 12 = (low v).setWidth 12 := by
    unfold putI
    rw [low_or, low_and, low_shl hw, low_and, low_ofNat hw, low_ofNat hw]
    apply BitVec.eq_of_getLsbD_eq
    intro i hi
    interval_cases i <;> simp
  unfold iImm
  rw [h]

theorem keepI_putI : low (putI x v) &&& keepI = low x &&& keepI := by
  unfold putI keepI
  rw [low_or, low_and, low_shl hw, low_ofNat hw]
  apply BitVec.eq_of_getLsbD_eq
  intro i hi
  interval_cases i <;> simp

theorem sImm_putS : sImm (low (putS x v)) = ((low v).setWidth 12).signExtend 32 := by
  have h : (low (putS x v)).extractLsb' 25 7 ++ (low (putS x v)).extractLsb' 7 5 =
      (low v).setWidth 12 := by
    unfold putS
    rw [low_or, low_or, low_and x, low_shl hw, low_shl hw, low_and v,
      low_shr_and v (BitVec.ofNat w 0x7f) 5 (by rw [low_ofNat hw]; decide), low_ofNat hw,
      low_ofNat hw, low_ofNat hw]
    apply BitVec.eq_of_getLsbD_eq
    intro i hi
    rw [BitVec.getLsbD_append]
    interval_cases i <;> simp
  unfold sImm
  rw [h]

theorem keepS_putS : low (putS x v) &&& keepS = low x &&& keepS := by
  unfold putS keepS
  rw [low_or, low_or, low_and x, low_shl hw, low_shl hw, low_and v, low_ofNat hw, low_ofNat hw]
  apply BitVec.eq_of_getLsbD_eq
  intro i hi
  interval_cases i <;> simp

theorem keepS_putB : low (putB x v) &&& keepS = low x &&& keepS := by
  unfold putB keepS
  rw [low_or, low_or, low_or, low_or, low_and x, low_shl hw, low_shl hw, low_shl hw, low_shl hw,
    low_ofNat hw]
  simp only [low_and, low_ofNat hw]
  apply BitVec.eq_of_getLsbD_eq
  intro i hi
  interval_cases i <;> simp

theorem keepU_putJ : low (putJ x v) &&& keepU = low x &&& keepU := by
  unfold putJ keepU
  rw [low_or, low_or, low_or, low_or, low_and x, low_shl hw, low_shl hw, low_shl hw, low_shl hw,
    low_ofNat hw]
  apply BitVec.eq_of_getLsbD_eq
  intro i hi
  interval_cases i <;> simp

/-- **An upper/lower pair written by the script adds up to its distance** (`addi`, `jalr`, loads). -/
theorem uImm_add_iImm (y : BitVec w) :
    uImm (low (putU x (hi20 v))) + iImm (low (putI y (lo12 v))) = low v := by
  rw [uImm_putU hw, iImm_putI hw, low_lo12 hw, signExtend_loPart, hi_add_lo]

/-- **An upper/lower pair written by the script adds up to its distance** (stores). -/
theorem uImm_add_sImm (y : BitVec w) :
    uImm (low (putU x (hi20 v))) + sImm (low (putS y (lo12 v))) = low v := by
  rw [uImm_putU hw, sImm_putS hw, low_lo12 hw, signExtend_loPart, hi_add_lo]

end Encoders

end P4Linux.Mkflt
