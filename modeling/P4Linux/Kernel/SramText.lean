import P4Linux.Lib.Asm

/-!
# The copy of `.sram.text`

Patch 0037: functions that are linked to run in SRAM and lie, as a part of the image, in PSRAM.

* `SramLink` -- what the linker script makes of them;
* `sramCopy` -- the loop in `_start_kernel`, instruction by instruction;
* `Copying` -- the loop after `i` words, `copying_body` one round of it;
* `sram_text_copied` -- it **moves exactly the section**: every byte of it, and nothing beside it.
-/

namespace P4Linux.Kernel

open Asm
open Rv hiding exec step run

/-! ## 1. The two addresses -/

def align8 (n : Nat) : Nat := (n + 7) / 8 * 8

/-- `etext` is the location counter after `.text`, `size` what `.sram.text` takes, `base` and `budget` are
    CONFIG_ESP32P4_SRAM_TEXT_BASE and CONFIG_ESP32P4_SRAM_TEXT_SIZE. -/
structure SramLink where
  etext : Nat
  size : Nat
  base : Nat
  budget : Nat
  /-- the ASSERT of the script -/
  budgeted : align8 (base + size) - base ≤ budget
  /-- the configured window: whole words, below the end of the address space and off the image -/
  window : base % 4 = 0 ∧ base + budget < 2 ^ 32
  apart : align8 etext + budget ≤ base

variable (k : SramLink)

/-- `__sram_text_lma`. -/
def SramLink.lma : Word := BitVec.ofNat 32 (align8 k.etext)
/-- `__sram_text_start`. -/
def SramLink.start : Word := BitVec.ofNat 32 k.base
/-- `__sram_text_end`. -/
def SramLink.stop : Word := BitVec.ofNat 32 (align8 (k.base + k.size))

/-- `SIZEOF(.sram.text)`. -/
def SramLink.length : Nat := align8 (k.base + k.size) - k.base

theorem sram_words : ∃ n, k.length = 4 * n ∧ align8 (k.base + k.size) = k.base + 4 * n := by
  obtain ⟨halign, -⟩ := k.window
  refine ⟨k.length / 4, ?_, ?_⟩ <;> unfold SramLink.length align8 <;> omega

/-! ## 2. The loop -/

abbrev a3 : Reg := 13#5
abbrev a4 : Reg := 14#5
abbrev a5 : Reg := 15#5
abbrev a6 : Reg := 16#5

/-- `.Lsram_text_copy` is line 4, `.Lsram_text_done` line 9. -/
def sramCopy : List Line :=
  [.la a3 k.lma,
    .la a4 k.start,
    .la a5 k.stop,
    .branch .eq a4 a5 9,
    .lw a6 0 a3,
    .sw a6 0 a4,
    .addi a3 a3 4,
    .addi a4 a4 4,
    .branch .ltu a4 a5 4,
    .fence,
    .fenceI]

/-- `i` words of `n` are copied: the line is the head of the loop, or the one behind it when they are all. -/
structure Copying (s : Cpu) (n i : Nat) (s' : Cpu) : Prop where
  line : s'.pc = if i < n then 4 else 9
  a3 : s'.get a3 = k.lma + BitVec.ofNat 32 (4 * i)
  a4 : s'.get a4 = k.start + BitVec.ofNat 32 (4 * i)
  a5 : s'.get a5 = k.stop
  regs : ∀ r, r ≠ Kernel.a3 → r ≠ Kernel.a4 → r ≠ Kernel.a5 → r ≠ Kernel.a6 → s'.get r = s.get r
  sys : s'.sys = s.sys
  mem : s'.mem = copied s.mem k.lma k.start (4 * i)

variable {k}

theorem SramLink.toNat_start (k : SramLink) : k.start.toNat = k.base := by
  obtain ⟨-, htop⟩ := k.window
  rw [SramLink.start, BitVec.toNat_ofNat]
  omega

theorem SramLink.toNat_lma (k : SramLink) : k.lma.toNat = align8 k.etext := by
  obtain ⟨-, htop⟩ := k.window
  have hapart := k.apart
  rw [SramLink.lma, BitVec.toNat_ofNat]
  omega

theorem SramLink.toNat_stop (k : SramLink) : k.stop.toNat = align8 (k.base + k.size) := by
  obtain ⟨-, htop⟩ := k.window
  have hbudget := k.budgeted
  rw [SramLink.stop, BitVec.toNat_ofNat]
  omega

/-- The first lines: nothing is copied yet, and an empty section is stepped over. -/
theorem copying_start {s : Cpu} {n : Nat} (hn : align8 (k.base + k.size) = k.base + 4 * n) (h : s.pc = 0) :
    ∃ t, Reaches (sramCopy k) s t ∧ Copying k s n 0 t := by
  have hempty : Cond.eq.holds k.start k.stop = decide (n = 0) := by
    rw [Cond.holds, Bool.beq_eq_decide_eq]
    refine decide_eq_decide.mpr ?_
    rw [← BitVec.toNat_inj, k.toNat_start, k.toNat_stop, hn]
    omega
  obtain ⟨pc, regs, mem, sys⟩ := s
  obtain rfl : pc = 0 := h
  refine ⟨_, ⟨4, rfl⟩, ?_⟩
  constructor
  case line =>
    by_cases h0 : n = 0 <;> simp +decide [hempty, h0, Nat.pos_iff_ne_zero]
  case a3 => simp +decide
  case a4 => simp +decide
  case a5 => simp +decide
  case regs =>
    intro r h3 h4 h5 h6
    by_cases h0 : r = 0#5
    · simp [h0]
    · simp [h0, h3, h4, h5]
  case sys => rfl
  case mem => simp

theorem copying_body {s s' : Cpu} {i n : Nat} (hn : align8 (k.base + k.size) = k.base + 4 * n) (hi : i < n)
    (h : Copying k s n i s') : ∃ s'', Reaches (sramCopy k) s' s'' ∧ Copying k s n (i + 1) s'' := by
  obtain ⟨-, htop⟩ := k.window
  have hbudget := k.budgeted
  have hapart := k.apart
  have hstart := k.toNat_start
  have hlma := k.toNat_lma
  have hpc : s'.pc = 4 := by rw [h.line, if_pos hi]
  have h4 : s'.get a4 + 4#32 = k.start + BitVec.ofNat 32 (4 * (i + 1)) := by
    rw [h.a4, add_ofNat_add]
    rfl
  -- whether the branch at the end goes back
  have hback : Cond.ltu.holds (k.start + BitVec.ofNat 32 (4 * (i + 1))) k.stop = decide (i + 1 < n) := by
    have e : (k.start + BitVec.ofNat 32 (4 * (i + 1))).toNat = k.base + 4 * (i + 1) := by
      rw [toNat_add_ofNat (by omega), hstart]
    rw [Cond.holds, BitVec.ult, e, k.toNat_stop, hn]
    exact decide_eq_decide.mpr (by omega)
  refine ⟨_, reaches_line (by rw [hpc]; rfl) rfl (reaches_line (by simp [hpc]; rfl) rfl
    (reaches_line (by simp [hpc]; rfl) rfl (reaches_line (by simp [hpc]; rfl) rfl
    (reaches_line (by simp [hpc]; rfl) rfl (reaches_refl _))))), ?_⟩
  constructor
  case line => simp +decide [hpc, h.a5, h4, hback]
  case a3 => simp +decide [h.a3, Nat.mul_succ, BitVec.ofNat_add, BitVec.add_assoc]
  case a4 => simp +decide [h.a4, Nat.mul_succ, BitVec.ofNat_add, BitVec.add_assoc]
  case a5 => simp +decide [h.a5]
  case regs =>
    intro r h3 h4 h5 h6
    by_cases h0 : r = 0#5
    · simp [h0]
    · simp [h0, h3, h4, h6, h.regs r h3 h4 h5 h6]
  case sys => exact h.sys
  case mem =>
    have hmore : 4 * i + 4 ≤ 4 * n := by omega
    have e := copied_step s.mem k.lma k.start hmore (by omega) (by omega) (by omega)
    simp +decide [h.mem, h.a3, h.a4, e, Nat.mul_succ]

/-- **The section is where it was linked** when the kernel goes on, whatever the hart and the memory held:
    `.sram.text` from the image, every other byte as it was. -/
theorem sram_text_copied (k : SramLink) {s : Cpu} (h : s.pc = 0) :
    ∃ s', Reaches (sramCopy k) s s' ∧ s'.pc = (sramCopy k).length ∧
      (∀ i < k.size, s'.mem (k.start + BitVec.ofNat 32 i) = s.mem (k.lma + BitVec.ofNat 32 i)) ∧
      (∀ a : Word, a.toNat < k.base ∨ k.base + k.length ≤ a.toNat → s'.mem a = s.mem a) ∧
      (∀ r, r ≠ a3 → r ≠ a4 → r ≠ a5 → r ≠ a6 → s'.get r = s.get r) ∧ s'.sys = s.sys := by
  obtain ⟨n, hlen, hn⟩ := sram_words k
  obtain ⟨-, htop⟩ := k.window
  have hbudget := k.budgeted
  have hstart := k.toNat_start
  obtain ⟨t, hst, ht⟩ := copying_start hn h
  obtain ⟨t', htt, hc⟩ := reaches_loop (I := Copying k s n) (n := n) (fun i hi s' hs' => copying_body hn hi hs') ht
  have hline : t'.pc = 9 := by rw [hc.line, if_neg (Nat.lt_irrefl n)]
  have hafter : Reaches (sramCopy k) t' (Asm.next (Asm.next t')) :=
    reaches_line (by rw [hline]; rfl) rfl (reaches_line (by simp [hline]; rfl) rfl (reaches_refl _))
  refine ⟨_, reaches_trans hst (reaches_trans htt hafter), by simp [hline, sramCopy], fun i hi => ?_, fun a ha => ?_,
    hc.regs, hc.sys⟩
  · have hsize : k.size ≤ 4 * n := by
      have := hn
      unfold align8 at this
      omega
    have e : (k.start + BitVec.ofNat 32 i).toNat = k.base + i := by
      rw [toNat_add_ofNat (by omega), hstart]
    show t'.mem _ = _
    rw [hc.mem, copied, e, hstart, if_pos (by omega), Nat.add_sub_cancel_left]
  · show t'.mem a = _
    rw [hc.mem, copied, hstart, if_neg (by omega)]

/-- `.sram.text` of 424 bytes behind a text that ends off a boundary. -/
def sramDefault : SramLink where
  etext := 0x48200003
  size := 424
  base := 0x4ff40000
  budget := 0x20000
  budgeted := by decide
  window := by decide
  apart := by decide

theorem sram_text_copied_default : ∃ s',
    Reaches (sramCopy sramDefault) ⟨0, fun _ => 0, fun a => ⟨a.setWidth 8⟩, fun _ => 0⟩ s' ∧
    s'.mem 0x4ff40003 = 0x0b ∧ s'.mem 0x4ff401a8 = 0xa8 := by
  obtain ⟨s', hreach, -, hcopy, hrest, -⟩ := sram_text_copied sramDefault
    (s := ⟨0, fun _ => 0, fun a => ⟨a.setWidth 8⟩, fun _ => 0⟩) rfl
  exact ⟨s', hreach, hcopy 3 (by decide), hrest _ (.inr (by decide))⟩

end P4Linux.Kernel
