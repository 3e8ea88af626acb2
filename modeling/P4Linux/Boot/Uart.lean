import Mathlib.Algebra.Order.Floor.Div
import Mathlib.Data.Nat.GCD.Basic
import Mathlib.Tactic.Common
import P4Linux.Lib.Proc

/-!
# p4_uart.c

`p4_uart0_set_baud` of `bootloader/p4/p4_uart.c`, with the casts and wraps of its integers. The registers are a
parameter (`Hw`): a read returns what the hardware has there by then.

* `divisors_nonzero` -- it never **divides by zero**;
* `setBaud_iff` -- where it sets the divisor that exact arithmetic gives.
-/

namespace P4Linux.Boot

/-! ## 1. The divisors -/

def uartClkdivM : BitVec 32 := 0x00000FFF
def uartClkdivFragM : BitVec 32 := 0x0000000F
def uart0SclkDivNumM : BitVec 32 := 0xFF

inductive Fault where
  | divideByZero
  deriving DecidableEq, Repr

/-- `x / y`. -/
def udiv {w : Nat} (x y : BitVec w) : Except Fault (BitVec w) := if y = 0 then .error .divideByZero else .ok (x / y)

/-- `(uint32_t)((uint64_t)max_div * baud)`. -/
def maxDivBaud (baud : BitVec 32) : BitVec 32 := (uartClkdivM.setWidth 64 * baud.setWidth 64).setWidth 32

/-- `(baud * sclk_div)`, widened for the division. -/
def baudSclkDiv (baud sclkDiv : BitVec 32) : BitVec 64 := (baud * sclkDiv).setWidth 64

structure Divisors where
  sclkDiv : BitVec 32
  clkdivInt : BitVec 32
  clkdivFrag : BitVec 32
  deriving DecidableEq, Repr

/-- From the start of the function to the test of `clkdiv_int`; `none` is `return false`. -/
def divisors (baud sclkHz : BitVec 32) : Except Fault (Option Divisors) := do
  if baud = 0 then pure none
  else
    let sclkDiv ← udiv (sclkHz + maxDivBaud baud - 1) (maxDivBaud baud)
    if sclkDiv = 0 ∨ uart0SclkDivNumM + 1 < sclkDiv then pure none
    else
      let quotient ← udiv (sclkHz.setWidth 64 <<< 4) (baudSclkDiv baud sclkDiv)
      let clkDiv := quotient.setWidth 32
      let clkdivInt := clkDiv >>> 4
      let clkdivFrag := clkDiv &&& 0xf
      if uartClkdivM < clkdivInt then pure none
      else pure (some ⟨sclkDiv, clkdivInt, clkdivFrag⟩)

/-! ## 2. The registers -/

def uartClkdivSyncReg : BitVec 32 := 0x500CA000 + 0x14
def uartRegUpdateReg : BitVec 32 := 0x500CA000 + 0x98
def periClkCtrl110 : BitVec 32 := 0x500E6000 + 0x68
def periClkCtrl111 : BitVec 32 := 0x500E6000 + 0x6c

def uartRegUpdate : BitVec 32 := 1 <<< 0
def uart0ClkSrcXtal : BitVec 32 := 0
def uart0ClkEn : BitVec 32 := 1 <<< 26

structure Hw (σ : Type) where
  read : BitVec 32 → σ → BitVec 32 × σ
  write : BitVec 32 → BitVec 32 → σ → σ
  /-- `uart_tx_wait_idle(0)` -/
  txWaitIdle : σ → σ

/-- The hardware, and what was written so far. -/
structure Bus (σ : Type) where
  hw : σ
  written : List (BitVec 32 × BitVec 32)

variable {σ : Type} (hw : Hw σ)

def readReg (a : BitVec 32) : Proc (Bus σ) (BitVec 32) :=
  Proc.step fun b => ((hw.read a b.hw).1, { b with hw := (hw.read a b.hw).2 })

def writeReg (a v : BitVec 32) : Proc (Bus σ) Unit :=
  Proc.step fun b => ((), ⟨hw.write a v b.hw, b.written ++ [(a, v)]⟩)

/-- `while (REG32(UART_REG_UPDATE_REG) & UART_REG_UPDATE)`. -/
def pollUpdate : Nat → Proc (Bus σ) Unit
  | 0 => Proc.stuck
  | n + 1 => do
    let v ← readReg hw uartRegUpdateReg
    if v &&& uartRegUpdate ≠ 0 then pollUpdate n else pure ()

/-- What is written to `PERI_CLK_CTRL110` and `PERI_CLK_CTRL111`, which were read before. -/
def ctrl110Of (c110 : BitVec 32) : BitVec 32 :=
  (c110 &&& ~~~(0x3#32 <<< 24)) ||| (uart0ClkSrcXtal <<< 24) ||| uart0ClkEn

def ctrl111Of (c111 sclkDiv : BitVec 32) : BitVec 32 :=
  (c111 &&& ~~~(uart0SclkDivNumM <<< 0)) ||| (((sclkDiv - 1) &&& uart0SclkDivNumM) <<< 0)

def clkdivSyncOf (clkdivInt clkdivFrag : BitVec 32) : BitVec 32 :=
  ((clkdivInt &&& uartClkdivM) <<< 0) ||| ((clkdivFrag &&& uartClkdivFragM) <<< 20)

/-- From `uart_tx_wait_idle(0)` on. -/
def programDivisors (rounds : Nat) (d : Divisors) : Proc (Bus σ) Unit := do
  Proc.step fun b => ((), { b with hw := hw.txWaitIdle b.hw })
  let c110 ← readReg hw periClkCtrl110
  writeReg hw periClkCtrl110 (ctrl110Of c110)
  let c111 ← readReg hw periClkCtrl111
  writeReg hw periClkCtrl111 (ctrl111Of c111 d.sclkDiv)
  writeReg hw uartClkdivSyncReg (clkdivSyncOf d.clkdivInt d.clkdivFrag)
  writeReg hw uartRegUpdateReg uartRegUpdate
  pollUpdate hw rounds

/-- `p4_uart0_set_baud`. -/
def setBaud (rounds : Nat) (baud sclkHz : BitVec 32) : Proc (Bus σ) (Except Fault Bool) :=
  match divisors baud sclkHz with
  | .error fault => pure (.error fault)
  | .ok none => pure (.ok false)
  | .ok (some d) => do
    programDivisors hw rounds d
    pure (.ok true)

/-- Registers that hold what is written to them; the update bit reads as clear. -/
def registers : Hw (BitVec 32 → BitVec 32) where
  read a f := (if a = uartRegUpdateReg then 0 else f a, f)
  write a v f := fun a' => if a' = a then v else f a'
  txWaitIdle f := f

/-! ## 3. The numbers -/

theorem udiv_ok {w : Nat} {x y z : BitVec w} : udiv x y = .ok z ↔ y ≠ 0 ∧ x / y = z := by
  unfold udiv
  split
  · rename_i h
    simp [h]
  · rename_i h
    rw [Except.ok.injEq]
    exact ⟨fun hz => ⟨h, hz⟩, fun hz => hz.2⟩

section

variable {baud sclkHz : BitVec 32}

theorem ne_zero_of_pos {w : Nat} {x : BitVec w} (h : 0 < x.toNat) : x ≠ 0 := fun h0 => by
  rw [h0] at h
  exact absurd h (Nat.lt_irrefl 0)

theorem maxDivBaud_toNat (baud : BitVec 32) : (maxDivBaud baud).toNat = 4095 * baud.toNat % 2 ^ 32 := by
  have hb := baud.isLt
  unfold maxDivBaud uartClkdivM
  rw [BitVec.toNat_setWidth, BitVec.toNat_mul, BitVec.toNat_setWidth, BitVec.toNat_setWidth]
  show 4095 % 2 ^ 64 * (baud.toNat % 2 ^ 64) % 2 ^ 64 % 2 ^ 32 = _
  omega

/-- 4095 is odd. -/
theorem maxDivBaud_pos (h : baud ≠ 0) : 0 < (maxDivBaud baud).toNat := by
  rw [maxDivBaud_toNat]
  refine Nat.pos_of_ne_zero fun h0 => h (BitVec.eq_of_toNat_eq ?_)
  have hdvd : 2 ^ 32 ∣ baud.toNat := Nat.Coprime.dvd_of_dvd_mul_left (by decide) (Nat.dvd_of_mod_eq_zero h0)
  exact Nat.eq_zero_of_dvd_of_lt hdvd baud.isLt

/-- The sum before the first division. -/
theorem sum_toNat (m : BitVec 32) (h : 0 < m.toNat) : (sclkHz + m - 1).toNat =
    if sclkHz.toNat + m.toNat ≤ 2 ^ 32 then sclkHz.toNat + m.toNat - 1 else sclkHz.toNat + m.toNat - 1 - 2 ^ 32 := by
  have hs := sclkHz.isLt
  have hm := m.isLt
  rw [BitVec.toNat_sub, BitVec.toNat_add]
  show (2 ^ 32 - 1 + _) % 2 ^ 32 = _
  split <;> omega

/-- **The second divisor** is a product that may wrap, but 4095 times it is a product that does not. -/
theorem baudSclkDiv_mod {sclkDiv : BitVec 32}
    (hd : (sclkHz + maxDivBaud baud - 1) / maxDivBaud baud = sclkDiv) :
    4095 * (baud * sclkDiv).toNat % 2 ^ 32 = sclkDiv.toNat * (maxDivBaud baud).toNat := by
  have hsum := (sclkHz + maxDivBaud baud - 1).isLt
  have hle : sclkDiv.toNat * (maxDivBaud baud).toNat ≤ (sclkHz + maxDivBaud baud - 1).toNat := by
    rw [← hd, BitVec.toNat_udiv]
    exact Nat.div_mul_le_self _ _
  calc 4095 * (baud * sclkDiv).toNat % 2 ^ 32
      = 4095 * (baud.toNat * sclkDiv.toNat) % 2 ^ 32 := by rw [BitVec.toNat_mul, Nat.mul_mod_mod]
    _ = sclkDiv.toNat * (4095 * baud.toNat) % 2 ^ 32 := by
      rw [Nat.mul_comm baud.toNat, Nat.mul_left_comm]
    _ = sclkDiv.toNat * (maxDivBaud baud).toNat % 2 ^ 32 := by rw [maxDivBaud_toNat, Nat.mul_mod_mod]
    _ = sclkDiv.toNat * (maxDivBaud baud).toNat := Nat.mod_eq_of_lt (by omega)

theorem baudSclkDiv_toNat (baud sclkDiv : BitVec 32) :
    (baudSclkDiv baud sclkDiv).toNat = (baud * sclkDiv).toNat := BitVec.toNat_setWidth_of_le (by decide)

theorem baudSclkDiv_pos (h : baud ≠ 0) {sclkDiv : BitVec 32}
    (hd : (sclkHz + maxDivBaud baud - 1) / maxDivBaud baud = sclkDiv) (hne : sclkDiv ≠ 0) :
    0 < (baud * sclkDiv).toNat := by
  refine Nat.pos_of_ne_zero fun h0 => ?_
  have hmod := baudSclkDiv_mod hd
  rw [h0, Nat.mul_zero, Nat.zero_mod] at hmod
  rcases Nat.mul_eq_zero.mp hmod.symm with hz | hz
  · exact hne (BitVec.eq_of_toNat_eq hz)
  · exact absurd hz (Nat.ne_of_gt (maxDivBaud_pos h))

/-! ## 4. No division by zero -/

theorem divisors_ne_error (baud sclkHz : BitVec 32) : divisors baud sclkHz ≠ .error .divideByZero := by
  unfold divisors
  split
  · exact fun h => nomatch h
  · rename_i hb
    have hm := ne_zero_of_pos (maxDivBaud_pos hb)
    rw [udiv_ok.mpr ⟨hm, rfl⟩]
    show (if _ then _ else _) ≠ _
    split
    · exact fun h => nomatch h
    · rename_i hd
      have hpos := baudSclkDiv_pos hb rfl fun h => hd (.inl h)
      have hp := ne_zero_of_pos ((baudSclkDiv_toNat _ _).symm ▸ hpos)
      rw [udiv_ok.mpr ⟨hp, rfl⟩]
      show (if _ then _ else _) ≠ _
      split
      · exact fun h => nomatch h
      · exact fun h => nomatch h

/-- **It never divides by zero**: neither of the truncated products is zero where it is divided by. -/
theorem divisors_nonzero (baud sclkHz : BitVec 32) :
    (baud ≠ 0 → maxDivBaud baud ≠ 0 ∧ ∀ sclkDiv, udiv (sclkHz + maxDivBaud baud - 1) (maxDivBaud baud) = .ok sclkDiv →
      sclkDiv ≠ 0 → baud * sclkDiv ≠ 0) ∧
    ∀ (rounds : Nat) (b b' : Bus σ) r, Proc.Ends (setBaud hw rounds baud sclkHz) b r b' →
      r ≠ .error .divideByZero := by
  refine ⟨fun hb => ⟨ne_zero_of_pos (maxDivBaud_pos hb), fun sclkDiv hd hne => ?_⟩, fun rounds b b' r h hr => ?_⟩
  · exact ne_zero_of_pos (baudSclkDiv_pos hb (udiv_ok.mp hd).2 hne)
  · subst hr
    unfold setBaud at h
    split at h
    · rename_i fault hf
      cases fault
      exact divisors_ne_error baud sclkHz hf
    · cases (Proc.ends_pure.mp h).1
    · obtain ⟨_, t, -, h⟩ := Proc.ends_bind.mp h
      cases (Proc.ends_pure.mp h).1

/-- A rate and a clock for which both products wrap. -/
theorem divisors_nonzero_wrapped : maxDivBaud 3000000000 ≠ 0 ∧ (3000000000 : BitVec 32) * 3 ≠ 0 := by
  have h := (divisors_nonzero registers 3000000000 2800000000).1 (by decide)
  exact ⟨h.1, h.2 3 (by decide) (by decide)⟩

/-! ## 5. What is computed -/

/-- The arithmetic lets a divisor through: the sum does not wrap, and eight bits hold the pre-divider. -/
def Reached (baud sclkHz : BitVec 32) : Prop :=
  sclkHz.toNat + (maxDivBaud baud).toNat ≤ 2 ^ 32 ∧ sclkHz.toNat ≤ 256 * (maxDivBaud baud).toNat

/-- `p` is what the pre-divider is, and `q` what `clk_div` is divided by. -/
structure Computed (baud sclkHz : BitVec 32) (d : Divisors) : Prop where
  pre : d.sclkDiv.toNat = sclkHz.toNat ⌈/⌉ (maxDivBaud baud).toNat
  int : d.clkdivInt.toNat = 16 * sclkHz.toNat / (baud.toNat * d.sclkDiv.toNat % 2 ^ 32) / 16
  frag : d.clkdivFrag.toNat = 16 * sclkHz.toNat / (baud.toNat * d.sclkDiv.toNat % 2 ^ 32) % 16
  pos : 0 < d.sclkDiv.toNat
  pre_le : d.sclkDiv.toNat ≤ 256
  int_le : d.clkdivInt.toNat ≤ 4095

theorem sclkDiv_toNat (h : baud ≠ 0) : ((sclkHz + maxDivBaud baud - 1) / maxDivBaud baud).toNat =
    if sclkHz.toNat + (maxDivBaud baud).toNat ≤ 2 ^ 32 then sclkHz.toNat ⌈/⌉ (maxDivBaud baud).toNat else 0 := by
  have hm := maxDivBaud_pos h
  have hs := sclkHz.isLt
  rw [BitVec.toNat_udiv, sum_toNat _ hm]
  split
  · rw [Nat.ceilDiv_eq_add_pred_div]
  · exact Nat.div_eq_of_lt (by omega)

theorem pos_of_ne_zero {w : Nat} {x : BitVec w} (h : x ≠ 0) : 0 < x.toNat :=
  Nat.pos_of_ne_zero fun h0 => h (BitVec.eq_of_toNat_eq h0)

theorem preDiv_test (sclkDiv : BitVec 32) : (sclkDiv = 0 ∨ uart0SclkDivNumM + 1 < sclkDiv) ↔
    sclkDiv.toNat = 0 ∨ 256 < sclkDiv.toNat := by
  refine or_congr ⟨fun h => by rw [h]; rfl, fun h => BitVec.eq_of_toNat_eq h⟩ ?_
  exact BitVec.lt_def

/-- `clk_div` fits its 32 bits, and its integer part the twelve of the register. -/
theorem clkDiv_le {s p : Nat} (h : s ≤ 4095 * p) : 16 * s / p ≤ 16 * 4095 := by
  refine Nat.div_le_of_le_mul ?_
  calc 16 * s ≤ 16 * (4095 * p) := Nat.mul_le_mul_left _ h
    _ = p * (16 * 4095) := by omega

/-- `clk_div` before it is cast. -/
theorem quotient_toNat (d : BitVec 32) : ((sclkHz.setWidth 64 <<< 4) / baudSclkDiv baud d).toNat =
    16 * sclkHz.toNat / (baud.toNat * d.toNat % 2 ^ 32) := by
  have hs := sclkHz.isLt
  have hnum : (sclkHz.setWidth 64 <<< 4).toNat = 16 * sclkHz.toNat := by
    rw [BitVec.toNat_shiftLeft, BitVec.toNat_setWidth_of_le (by decide), Nat.shiftLeft_eq]
    omega
  rw [BitVec.toNat_udiv, hnum, baudSclkDiv_toNat, BitVec.toNat_mul]

theorem sclkDiv_reached (hb : baud ≠ 0) (hs : sclkHz ≠ 0) (h : Reached baud sclkHz) {d : BitVec 32}
    (hd : (sclkHz + maxDivBaud baud - 1) / maxDivBaud baud = d) :
    d.toNat = sclkHz.toNat ⌈/⌉ (maxDivBaud baud).toNat ∧ 0 < d.toNat ∧ d.toNat ≤ 256 ∧
      sclkHz.toNat ≤ 4095 * (baud.toNat * d.toNat % 2 ^ 32) := by
  obtain ⟨hsum, hpre⟩ := h
  have hm := maxDivBaud_pos hb
  have hdn : d.toNat = sclkHz.toNat ⌈/⌉ (maxDivBaud baud).toNat := by
    rw [← hd, sclkDiv_toNat hb, if_pos hsum]
  have hle : d.toNat ≤ 256 := by
    rw [hdn, ceilDiv_le_iff_le_mul hm, Nat.mul_comm]
    exact hpre
  have hcover : sclkHz.toNat ≤ d.toNat * (maxDivBaud baud).toNat := by
    rw [hdn, Nat.mul_comm]
    exact le_smul_ceilDiv hm
  have hpos : 0 < d.toNat := by
    refine Nat.pos_of_ne_zero fun h0 => ?_
    rw [h0, Nat.zero_mul] at hcover
    exact absurd (pos_of_ne_zero hs) (by omega)
  refine ⟨hdn, hpos, hle, hcover.trans ?_⟩
  rw [← baudSclkDiv_mod hd, BitVec.toNat_mul]
  exact Nat.mod_le _ _

theorem divisors_reached (hb : baud ≠ 0) (hs : sclkHz ≠ 0) (h : Reached baud sclkHz) :
    ∃ d, divisors baud sclkHz = .ok (some d) ∧ Computed baud sclkHz d := by
  obtain ⟨d, hd⟩ : ∃ d, (sclkHz + maxDivBaud baud - 1) / maxDivBaud baud = d := ⟨_, rfl⟩
  obtain ⟨hdn, hpos, hle, hcover⟩ := sclkDiv_reached hb hs h hd
  have hm := ne_zero_of_pos (maxDivBaud_pos hb)
  have hpos' := baudSclkDiv_pos hb hd (ne_zero_of_pos hpos)
  have hp := ne_zero_of_pos ((baudSclkDiv_toNat _ _).symm ▸ hpos')
  have hq := clkDiv_le hcover
  obtain ⟨c, hc⟩ : ∃ c, ((sclkHz.setWidth 64 <<< 4) / baudSclkDiv baud d).setWidth 32 = c := ⟨_, rfl⟩
  have hcn : c.toNat = 16 * sclkHz.toNat / (baud.toNat * d.toNat % 2 ^ 32) := by
    rw [← hc, BitVec.toNat_setWidth, quotient_toNat]
    exact Nat.mod_eq_of_lt (Nat.lt_of_le_of_lt hq (by decide))
  have hint : (c >>> 4).toNat = c.toNat / 16 := by
    rw [BitVec.toNat_ushiftRight, Nat.shiftRight_eq_div_pow]
  have hfrag : (c &&& 0xf).toNat = c.toNat % 16 := by
    rw [BitVec.toNat_and]
    exact Nat.and_two_pow_sub_one_eq_mod c.toNat 4
  have hclk : ¬uartClkdivM < c >>> 4 := fun hlt => by
    have hlt' := BitVec.lt_def.mp hlt
    rw [hint, hcn] at hlt'
    exact absurd hlt' (by show ¬4095 < _; omega)
  refine ⟨⟨d, c >>> 4, c &&& 0xf⟩, ?_, ?_⟩
  · unfold divisors
    rw [if_neg hb, udiv_ok.mpr ⟨hm, hd⟩]
    show (if _ then _ else _) = _
    rw [if_neg (fun ht => by have := (preDiv_test d).mp ht; omega), udiv_ok.mpr ⟨hp, rfl⟩]
    show (if _ < BitVec.setWidth 32 _ >>> 4 then _ else _) = _
    rw [hc, if_neg hclk]
    rfl
  · refine ⟨hdn, ?_, ?_, hpos, hle, ?_⟩
    · rw [hint, hcn]
    · rw [hfrag, hcn]
    · show (c >>> 4).toNat ≤ 4095
      rw [hint, hcn]
      omega

theorem divisors_not_reached (h : ¬Reached baud sclkHz) :
    divisors baud sclkHz = .ok none := by
  by_cases hb : baud = 0
  · unfold divisors
    rw [if_pos hb]
    rfl
  · have hm := ne_zero_of_pos (maxDivBaud_pos hb)
    unfold divisors
    rw [if_neg hb, udiv_ok.mpr ⟨hm, rfl⟩]
    refine if_pos ((preDiv_test _).mpr ?_)
    rw [sclkDiv_toNat hb]
    split
    · rename_i hsum
      refine .inr (Nat.lt_of_not_le fun hle => h ⟨hsum, ?_⟩)
      rw [ceilDiv_le_iff_le_mul (maxDivBaud_pos hb), Nat.mul_comm] at hle
      exact hle
    · exact .inl rfl

end

/-! ## 6. What is written -/

section

open Proc

variable {hw}

/-- `UART_REG_UPDATE` clears itself: however often it has been read, some later read finds it clear. -/
def Hw.Clears (hw : Hw σ) : Prop := ∀ s, ∃ k : Nat,
  (hw.read uartRegUpdateReg ((fun s => (hw.read uartRegUpdateReg s).2)^[k] s)).1 &&& uartRegUpdate = 0

/-- One round of the loop. -/
theorem pollUpdate_succ {s : σ} {w : List (BitVec 32 × BitVec 32)} {n : Nat} {b : Bus σ} :
    Ends (pollUpdate hw (n + 1)) ⟨s, w⟩ () b ↔
      Ends (if (hw.read uartRegUpdateReg s).1 &&& uartRegUpdate ≠ 0 then pollUpdate hw n else pure ())
        ⟨(hw.read uartRegUpdateReg s).2, w⟩ () b := Iff.rfl

theorem pollUpdate_ends {s : σ} {w : List (BitVec 32 × BitVec 32)} {k : Nat}
    (hk : (hw.read uartRegUpdateReg ((fun s => (hw.read uartRegUpdateReg s).2)^[k] s)).1 &&& uartRegUpdate = 0)
    {n : Nat} (hn : k < n) : ∃ t, Ends (pollUpdate hw n) ⟨s, w⟩ () ⟨t, w⟩ := by
  induction k generalizing n s with
  | zero =>
    obtain ⟨n, rfl⟩ := Nat.exists_eq_succ_of_ne_zero (Nat.ne_of_gt hn)
    have hclear : (hw.read uartRegUpdateReg s).1 &&& uartRegUpdate = 0 := hk
    refine ⟨(hw.read uartRegUpdateReg s).2, pollUpdate_succ.mpr ?_⟩
    rw [if_neg (not_not.mpr hclear)]
    exact ends_pure.mpr ⟨rfl, rfl⟩
  | succ k ih =>
    obtain ⟨n, rfl⟩ := Nat.exists_eq_succ_of_ne_zero (Nat.ne_of_gt (Nat.zero_lt_of_lt hn))
    by_cases hv : (hw.read uartRegUpdateReg s).1 &&& uartRegUpdate = 0
    · refine ⟨(hw.read uartRegUpdateReg s).2, pollUpdate_succ.mpr ?_⟩
      rw [if_neg (not_not.mpr hv)]
      exact ends_pure.mpr ⟨rfl, rfl⟩
    · obtain ⟨t, ht⟩ := ih (s := (hw.read uartRegUpdateReg s).2) hk (Nat.lt_of_succ_lt_succ hn)
      refine ⟨t, pollUpdate_succ.mpr ?_⟩
      rw [if_pos hv]
      exact ht

theorem pollUpdate_written {n : Nat} {b b' : Bus σ} (h : Ends (pollUpdate hw n) b () b') :
    b'.written = b.written := by
  have hleaves : ∀ n, Leaves Bus.written (pollUpdate hw n) := by
    intro n
    induction n with
    | zero => exact leaves_stuck
    | succ n ih => exact leaves_bind (leaves_step fun _ => rfl) fun _ => leaves_ite ih (leaves_pure _)
  exact (hleaves n).ends h

/-- The four writes, after `CTRL110` and `CTRL111` have been read. -/
def writesOf (c110 c111 : BitVec 32) (d : Divisors) : List (BitVec 32 × BitVec 32) :=
  [(periClkCtrl110, ctrl110Of c110), (periClkCtrl111, ctrl111Of c111 d.sclkDiv),
    (uartClkdivSyncReg, clkdivSyncOf d.clkdivInt d.clkdivFrag), (uartRegUpdateReg, uartRegUpdate)]

theorem programDivisors_written {n : Nat} {d : Divisors} {s : σ} {b : Bus σ}
    (h : Ends (programDivisors hw n d) ⟨s, []⟩ () b) : ∃ c110 c111, b.written = writesOf c110 c111 d := by
  obtain ⟨_, b₁, h₁, h⟩ := ends_bind.mp h
  obtain ⟨-, rfl⟩ := Prod.mk.inj (ends_step.mp h₁)
  obtain ⟨c110, b₂, h₂, h⟩ := ends_bind.mp h
  obtain ⟨-, rfl⟩ := Prod.mk.inj (ends_step.mp h₂)
  obtain ⟨_, b₃, h₃, h⟩ := ends_bind.mp h
  obtain ⟨-, rfl⟩ := Prod.mk.inj (ends_step.mp h₃)
  obtain ⟨c111, b₄, h₄, h⟩ := ends_bind.mp h
  obtain ⟨-, rfl⟩ := Prod.mk.inj (ends_step.mp h₄)
  obtain ⟨_, b₅, h₅, h⟩ := ends_bind.mp h
  obtain ⟨-, rfl⟩ := Prod.mk.inj (ends_step.mp h₅)
  obtain ⟨_, b₆, h₆, h⟩ := ends_bind.mp h
  obtain ⟨-, rfl⟩ := Prod.mk.inj (ends_step.mp h₆)
  obtain ⟨_, b₇, h₇, h⟩ := ends_bind.mp h
  obtain ⟨-, rfl⟩ := Prod.mk.inj (ends_step.mp h₇)
  exact ⟨c110, c111, pollUpdate_written h⟩

/-- With enough rounds for the hardware, programming comes to its end. -/
theorem programDivisors_ends (hc : hw.Clears) (d : Divisors) (s : σ) :
    ∃ n₀, ∀ n, n₀ ≤ n → ∃ b, Ends (programDivisors hw n d) ⟨s, []⟩ () b := by
  -- what is before the loop ends in one way, whatever the rounds of the loop are
  obtain ⟨b, hb⟩ : ∃ b : Bus σ, ∀ n u b', Ends (pollUpdate hw n) b u b' →
      Ends (programDivisors hw n d) ⟨s, []⟩ u b' :=
    ⟨_, fun n u b' h => ends_bind.mpr ⟨_, _, ends_step.mpr rfl, ends_bind.mpr ⟨_, _, ends_step.mpr rfl,
      ends_bind.mpr ⟨_, _, ends_step.mpr rfl, ends_bind.mpr ⟨_, _, ends_step.mpr rfl,
        ends_bind.mpr ⟨_, _, ends_step.mpr rfl, ends_bind.mpr ⟨_, _, ends_step.mpr rfl,
          ends_bind.mpr ⟨_, _, ends_step.mpr rfl, h⟩⟩⟩⟩⟩⟩⟩⟩
  obtain ⟨k, hk⟩ := hc b.hw
  refine ⟨k + 1, fun n hn => ?_⟩
  obtain ⟨t, ht⟩ := pollUpdate_ends (w := b.written) hk hn
  exact ⟨_, hb n () _ ht⟩

end

/-! ## 7. Exact arithmetic -/

/-- `D`, in unbounded integers. -/
def exactPreDiv (baud sclkHz : Nat) : Nat := sclkHz ⌈/⌉ (4095 * baud)

/-- `C`, in sixteenths. -/
def exactClkDiv (baud sclkHz : Nat) : Nat := 16 * sclkHz / (baud * exactPreDiv baud sclkHz)

structure Accepts (baud sclkHz : Nat) : Prop where
  pre : 1 ≤ exactPreDiv baud sclkHz ∧ exactPreDiv baud sclkHz ≤ 256
  int : 1 ≤ exactClkDiv baud sclkHz / 16 ∧ exactClkDiv baud sclkHz / 16 ≤ 4095

section

variable {b s : Nat}

theorem le_exactPreDiv (hb : 0 < b) (s : Nat) : s ≤ 4095 * b * exactPreDiv b s := by
  have hm : 0 < 4095 * b := by omega
  exact le_smul_ceilDiv hm

theorem exactPreDiv_le (hb : 0 < b) {d : Nat} : exactPreDiv b s ≤ d ↔ s ≤ 4095 * b * d := by
  have hm : 0 < 4095 * b := by omega
  exact ceilDiv_le_iff_le_mul hm

theorem exactPreDiv_pos (hb : 0 < b) (hs : 0 < s) : 0 < exactPreDiv b s := by
  refine Nat.pos_of_ne_zero fun h0 => ?_
  have hcover := le_exactPreDiv hb s
  rw [h0] at hcover
  omega

theorem exactClkDiv_int (b s : Nat) : exactClkDiv b s / 16 = s / (b * exactPreDiv b s) := by
  rw [exactClkDiv, Nat.div_div_eq_div_mul, Nat.mul_comm _ 16, Nat.mul_div_mul_left _ _ (by decide)]

/-- Rounding the pre-divider up cannot take the divisor below one, if it was not there before. -/
theorem preDiv_le (hb : 0 < b) (hs : 0 < s) : b * exactPreDiv b s ≤ s ↔ b ≤ s := by
  have hpos := exactPreDiv_pos hb hs
  constructor
  · exact fun h => (Nat.le_mul_of_pos_right b hpos).trans h
  · intro h
    by_cases hone : exactPreDiv b s = 1
    · rw [hone, Nat.mul_one]
      exact h
    · have hlt : 4095 * b * (exactPreDiv b s - 1) < s := by
        refine Nat.lt_of_not_le fun hle => ?_
        have hless := (exactPreDiv_le hb).mpr hle
        omega
      refine Nat.le_of_lt (Nat.lt_of_le_of_lt ?_ hlt)
      rw [Nat.mul_comm 4095, Nat.mul_assoc]
      exact Nat.mul_le_mul_left b (by omega)

/-- The rates that exact arithmetic accepts, from `sclk_hz` down. -/
theorem accepts_iff (hb : 0 < b) (hs : 0 < s) : Accepts b s ↔ b ≤ s ∧ s ≤ 1048320 * b := by
  have hpos := exactPreDiv_pos hb hs
  have hprod := Nat.mul_pos hb hpos
  have hpre : exactPreDiv b s ≤ 256 ↔ s ≤ 1048320 * b := by
    rw [exactPreDiv_le hb]
    omega
  have hint : 1 ≤ exactClkDiv b s / 16 ↔ b ≤ s := by
    rw [exactClkDiv_int, Nat.le_div_iff_mul_le hprod, Nat.one_mul]
    exact preDiv_le hb hs
  have hmax : exactClkDiv b s / 16 ≤ 4095 := by
    rw [exactClkDiv_int]
    refine Nat.div_le_of_le_mul ((le_exactPreDiv hb s).trans (Nat.le_of_eq ?_))
    rw [Nat.mul_assoc, Nat.mul_comm]
  constructor
  · exact fun h => ⟨hint.mp h.int.1, hpre.mp h.pre.2⟩
  · exact fun h => ⟨⟨hpos, hpre.mpr h.2⟩, ⟨hint.mpr h.1, hmax⟩⟩

end

/-! ## 8. Where the code agrees -/

/-- What a call returned and wrote, against exact arithmetic. -/
structure Sets (baud sclkHz : Nat) (r : Bool) (written : List (BitVec 32 × BitVec 32)) : Prop where
  returns : r = true ↔ Accepts baud sclkHz
  programs : r = true → ∃ c110 c111 clkdiv, written = [(periClkCtrl110, c110), (periClkCtrl111, c111),
      (uartClkdivSyncReg, clkdiv), (uartRegUpdateReg, uartRegUpdate)] ∧
    c111.toNat % 2 ^ 8 = exactPreDiv baud sclkHz - 1 ∧
    clkdiv.toNat % 2 ^ 12 = exactClkDiv baud sclkHz / 16 ∧
    clkdiv.toNat / 2 ^ 20 % 2 ^ 4 = exactClkDiv baud sclkHz % 16
  untouched : r = false → written = []

/-- The call comes to its end, given the rounds that the hardware needs. -/
def SetsExactly (hw : Hw σ) (s : σ) (baud sclkHz : BitVec 32) : Prop :=
  ∃ n₀, ∀ n, n₀ ≤ n → ∃ r b, Proc.Ends (setBaud hw n baud sclkHz) ⟨s, []⟩ (.ok r) b ∧
    Sets baud.toNat sclkHz.toNat r b.written

theorem ctrl111Of_pre (c111 sclkDiv : BitVec 32) :
    (ctrl111Of c111 sclkDiv).toNat % 2 ^ 8 = (sclkDiv - 1).toNat % 2 ^ 8 := by
  rw [← BitVec.toNat_setWidth, ← BitVec.toNat_setWidth]
  refine congrArg BitVec.toNat ?_
  have hlow : (~~~(uart0SclkDivNumM <<< 0)).setWidth 8 = 0#8 := by decide
  have hones : uart0SclkDivNumM.setWidth 8 = BitVec.allOnes 8 := by decide
  unfold ctrl111Of
  rw [BitVec.setWidth_or, BitVec.setWidth_and, hlow, BitVec.and_zero, BitVec.zero_or, BitVec.shiftLeft_zero,
    BitVec.setWidth_and, hones, BitVec.and_allOnes]

theorem clkdivSyncOf_toNat {clkdivInt clkdivFrag : BitVec 32} (hi : clkdivInt.toNat < 2 ^ 12)
    (hf : clkdivFrag.toNat < 2 ^ 4) :
    (clkdivSyncOf clkdivInt clkdivFrag).toNat = 2 ^ 20 * clkdivFrag.toNat + clkdivInt.toNat := by
  have hint : ((clkdivInt &&& uartClkdivM) <<< 0).toNat = clkdivInt.toNat := by
    rw [BitVec.shiftLeft_zero, BitVec.toNat_and]
    exact (Nat.and_two_pow_sub_one_eq_mod _ 12).trans (Nat.mod_eq_of_lt hi)
  have hfrag : ((clkdivFrag &&& uartClkdivFragM) <<< 20).toNat = 2 ^ 20 * clkdivFrag.toNat := by
    have hand : (clkdivFrag &&& uartClkdivFragM).toNat = clkdivFrag.toNat :=
      (BitVec.toNat_and _ _).trans ((Nat.and_two_pow_sub_one_eq_mod _ 4).trans (Nat.mod_eq_of_lt hf))
    rw [BitVec.toNat_shiftLeft, hand, Nat.shiftLeft_eq]
    omega
  unfold clkdivSyncOf
  rw [BitVec.toNat_or, hint, hfrag, Nat.or_comm]
  exact (Nat.two_pow_add_eq_or_of_lt (by omega) _).symm

/-- With `m` for `4095 * baud` as 32 bits have it: a rate that exact arithmetic accepts must not make the sum wrap
and, if the product has wrapped, must get by without the pre-divider; a rate above the clock must be refused for one of
the two. -/
def Faithful (baud sclkHz : Nat) : Prop :=
  let m := 4095 * baud % 2 ^ 32
  (baud ≤ sclkHz → sclkHz ≤ 1048320 * baud →
    sclkHz + m ≤ 2 ^ 32 ∧ (4095 * baud < 2 ^ 32 ∨ sclkHz ≤ m)) ∧
  (sclkHz < baud → 2 ^ 32 < sclkHz + m ∨ 256 * m < sclkHz)

instance (baud sclkHz : Nat) : Decidable (Faithful baud sclkHz) := inferInstanceAs (Decidable (_ ∧ _))

section

open Proc

variable {hw} {baud sclkHz : BitVec 32} {s : σ}

/-- Where the divisor is let through, it is the exact one if and only if the rounded clocks are equal. -/
theorem preDiv_eq (hb : baud ≠ 0) (hs : sclkHz ≠ 0) :
    sclkHz.toNat ⌈/⌉ (maxDivBaud baud).toNat = exactPreDiv baud.toNat sclkHz.toNat ↔
      4095 * baud.toNat < 2 ^ 32 ∨ sclkHz.toNat ≤ (maxDivBaud baud).toNat := by
  have hm := maxDivBaud_pos hb
  have hmn := maxDivBaud_toNat baud
  have hbp := pos_of_ne_zero hb
  have hsp := pos_of_ne_zero hs
  have hslt := sclkHz.isLt
  have hone := exactPreDiv_pos hbp hsp
  constructor
  · intro h
    by_cases hlt : 4095 * baud.toNat < 2 ^ 32
    · exact .inl hlt
    · have hle : exactPreDiv baud.toNat sclkHz.toNat ≤ 1 := (exactPreDiv_le hbp).mpr (by omega)
      rw [← h, ceilDiv_le_iff_le_mul hm, Nat.mul_one] at hle
      exact .inr hle
  · rintro (hlt | hle)
    · rw [hmn, Nat.mod_eq_of_lt hlt]
      rfl
    · have hfirst : sclkHz.toNat ⌈/⌉ (maxDivBaud baud).toNat ≤ 1 := by
        rw [ceilDiv_le_iff_le_mul hm, Nat.mul_one]
        exact hle
      have hsecond : exactPreDiv baud.toNat sclkHz.toNat ≤ 1 := by
        refine (exactPreDiv_le hbp).mpr ?_
        have hmod := Nat.mod_le (4095 * baud.toNat) (2 ^ 32)
        omega
      have hpos : 0 < sclkHz.toNat ⌈/⌉ (maxDivBaud baud).toNat := by
        refine Nat.pos_of_ne_zero fun h0 => ?_
        have hcover : sclkHz.toNat ≤ (maxDivBaud baud).toNat * (sclkHz.toNat ⌈/⌉ (maxDivBaud baud).toNat) :=
          le_smul_ceilDiv hm
        rw [h0] at hcover
        omega
      omega

/-- What is programmed then is what exact arithmetic gives. -/
theorem Computed.sets {d : Divisors} (h : Computed baud sclkHz d) (ha : Accepts baud.toNat sclkHz.toNat)
    (hpre : sclkHz.toNat ⌈/⌉ (maxDivBaud baud).toNat = exactPreDiv baud.toNat sclkHz.toNat)
    (c110 c111 : BitVec 32) : Sets baud.toNat sclkHz.toNat true (writesOf c110 c111 d) := by
  have hd : d.sclkDiv.toNat = exactPreDiv baud.toNat sclkHz.toNat := h.pre.trans hpre
  have hprod : baud.toNat * d.sclkDiv.toNat % 2 ^ 32 = baud.toNat * exactPreDiv baud.toNat sclkHz.toNat := by
    have hint := ha.int.1
    rw [exactClkDiv_int] at hint
    have hle := Nat.mul_le_of_le_div _ _ _ hint
    rw [hd, Nat.mod_eq_of_lt]
    have hslt := sclkHz.isLt
    omega
  have hi : d.clkdivInt.toNat = exactClkDiv baud.toNat sclkHz.toNat / 16 := by
    rw [h.int, hprod]
    rfl
  have hf : d.clkdivFrag.toNat = exactClkDiv baud.toNat sclkHz.toNat % 16 := by
    rw [h.frag, hprod]
    rfl
  have hfrag : d.clkdivFrag.toNat < 2 ^ 4 := by omega
  have hsync := clkdivSyncOf_toNat (Nat.lt_succ_of_le h.int_le) hfrag
  have hle := h.int_le
  refine ⟨iff_of_true rfl ha, fun _ => ⟨_, _, _, rfl, ?_, ?_, ?_⟩, fun hr => absurd hr (by decide)⟩
  · have hone : (d.sclkDiv - 1).toNat = d.sclkDiv.toNat - 1 := by
      have hpos := h.pos
      exact BitVec.toNat_sub_of_le (BitVec.le_def.mpr hpos)
    have h256 := h.pre_le
    rw [ctrl111Of_pre, hone, hd]
    omega
  · rw [hsync]
    omega
  · rw [hsync]
    omega

theorem setBaud_reached (hc : hw.Clears) (hb : baud ≠ 0) (hs : sclkHz ≠ 0) (h : Reached baud sclkHz) (s : σ) :
    ∃ d, Computed baud sclkHz d ∧ ∃ n₀, ∀ n, n₀ ≤ n → ∃ b c110 c111,
      Ends (setBaud hw n baud sclkHz) ⟨s, []⟩ (.ok true) b ∧ b.written = writesOf c110 c111 d := by
  obtain ⟨d, hd, hcomp⟩ := divisors_reached hb hs h
  obtain ⟨n₀, hn₀⟩ := programDivisors_ends hc d s
  refine ⟨d, hcomp, n₀, fun n hn => ?_⟩
  obtain ⟨b, hrun⟩ := hn₀ n hn
  obtain ⟨c110, c111, hw'⟩ := programDivisors_written hrun
  refine ⟨b, c110, c111, ?_, hw'⟩
  unfold setBaud
  rw [hd]
  exact ends_bind.mpr ⟨(), b, hrun, ends_pure.mpr ⟨rfl, rfl⟩⟩

theorem setBaud_not_reached (h : ¬Reached baud sclkHz) (n : Nat) (s : σ) :
    Ends (setBaud hw n baud sclkHz) ⟨s, []⟩ (.ok false) ⟨s, []⟩ := by
  unfold setBaud
  rw [divisors_not_reached h]
  exact ends_pure.mpr ⟨rfl, rfl⟩

theorem faithful_of_setsExactly (hc : hw.Clears) (hb : baud ≠ 0) (hs : sclkHz ≠ 0)
    (h : SetsExactly hw s baud sclkHz) : Faithful baud.toNat sclkHz.toNat := by
  have haccepts := accepts_iff (pos_of_ne_zero hb) (pos_of_ne_zero hs)
  have hmn := maxDivBaud_toNat baud
  obtain ⟨n₀, hn₀⟩ := h
  by_cases hr : Reached baud sclkHz
  · obtain ⟨d, hcomp, n₁, hn₁⟩ := setBaud_reached hc hb hs hr s
    obtain ⟨b, c110, c111, hrun, hwritten⟩ := hn₁ (max n₀ n₁) (Nat.le_max_right _ _)
    obtain ⟨r, b', hrun', hsets⟩ := hn₀ (max n₀ n₁) (Nat.le_max_left _ _)
    obtain ⟨hr', rfl⟩ := hrun.unique hrun'
    obtain rfl := Except.ok.inj hr'
    have ha := hsets.returns.mp rfl
    -- the pre-divider that was written is the exact one
    obtain ⟨_, c111', _, heq, hpre, -, -⟩ := hsets.programs rfl
    rw [hwritten] at heq
    have hc111 : ctrl111Of c111 d.sclkDiv = c111' := congrArg (fun l => (l.getD 1 (0, 0)).2) heq
    have hone : (d.sclkDiv - 1).toNat = d.sclkDiv.toNat - 1 :=
      BitVec.toNat_sub_of_le (BitVec.le_def.mpr hcomp.pos)
    rw [← hc111, ctrl111Of_pre, hone] at hpre
    have h256 := hcomp.pre_le
    have hpos := hcomp.pos
    have hD := ha.pre
    have hd : d.sclkDiv.toNat = exactPreDiv baud.toNat sclkHz.toNat := by omega
    have hwrap := (preDiv_eq hb hs).mp (hcomp.pre.symm.trans hd)
    rw [hmn] at hwrap
    refine ⟨fun _ _ => ⟨hmn ▸ hr.1, hwrap⟩, fun hlt => ?_⟩
    exact absurd (haccepts.mp ha).1 (Nat.not_le_of_lt hlt)
  · obtain ⟨r, b, hrun, hsets⟩ := hn₀ n₀ (Nat.le_refl _)
    obtain ⟨hr', rfl⟩ := (setBaud_not_reached hr n₀ s).unique hrun
    obtain rfl := Except.ok.inj hr'
    have hna : ¬Accepts baud.toNat sclkHz.toNat := fun ha => absurd (hsets.returns.mpr ha) (by decide)
    rw [haccepts] at hna
    unfold Reached at hr
    rw [hmn] at hr
    exact ⟨fun h₁ h₂ => absurd ⟨h₁, h₂⟩ hna, fun _ => by omega⟩

theorem setsExactly_of_faithful (hc : hw.Clears) (hb : baud ≠ 0) (hs : sclkHz ≠ 0)
    (h : Faithful baud.toNat sclkHz.toNat) (s : σ) : SetsExactly hw s baud sclkHz := by
  have haccepts := accepts_iff (pos_of_ne_zero hb) (pos_of_ne_zero hs)
  have hmn := maxDivBaud_toNat baud
  have hmod := Nat.mod_le (4095 * baud.toNat) (2 ^ 32)
  obtain ⟨hin, hout⟩ := h
  by_cases hr : Reached baud sclkHz
  · have ha : Accepts baud.toNat sclkHz.toNat := by
      unfold Reached at hr
      rw [hmn] at hr
      refine haccepts.mpr ⟨Nat.le_of_not_lt fun hlt => ?_, by omega⟩
      have := hout hlt
      omega
    have hle := haccepts.mp ha
    have hwrap := (hin hle.1 hle.2).2
    rw [← hmn] at hwrap
    obtain ⟨d, hcomp, n₁, hn₁⟩ := setBaud_reached hc hb hs hr s
    refine ⟨n₁, fun n hn => ?_⟩
    obtain ⟨b, c110, c111, hrun, hwritten⟩ := hn₁ n hn
    exact ⟨true, b, hrun, hwritten ▸ hcomp.sets ha ((preDiv_eq hb hs).mpr hwrap) c110 c111⟩
  · have hna : ¬Accepts baud.toNat sclkHz.toNat := by
      intro ha
      obtain ⟨h₁, h₂⟩ := haccepts.mp ha
      obtain ⟨hsum, hwrap⟩ := hin h₁ h₂
      unfold Reached at hr
      rw [hmn] at hr
      omega
    refine ⟨0, fun n _ => ⟨false, _, setBaud_not_reached hr n s, ?_⟩⟩
    exact ⟨iff_of_false (by decide) hna, fun hr => absurd hr (by decide), fun _ => rfl⟩

/-- **The divisor is the exact one**, for all hardware that clears its update bit, on these rates and no others. -/
theorem setBaud_iff (hc : hw.Clears) (hb : baud ≠ 0) (hs : sclkHz ≠ 0) (s : σ) :
    SetsExactly hw s baud sclkHz ↔ Faithful baud.toNat sclkHz.toNat :=
  ⟨faithful_of_setsExactly hc hb hs, fun h => setsExactly_of_faithful hc hb hs h s⟩

end

theorem registers_clears : registers.Clears := fun _ => ⟨0, by simp [registers]⟩

/-- 40 MHz to 4 Mbaud. -/
theorem setBaud_iff_console : SetsExactly registers (fun _ => 0) 4000000 40000000 :=
  (setBaud_iff registers_clears (by decide) (by decide) _).mpr (by decide)

/-- A rate just above a million, where the product wraps to 3839 and 40 MHz are refused. -/
theorem not_setsExactly_wrapped : ¬SetsExactly registers (fun _ => 0) 1048833 40000000 := fun h =>
  absurd (faithful_of_setsExactly registers_clears (by decide) (by decide) h) (by decide)

end P4Linux.Boot
