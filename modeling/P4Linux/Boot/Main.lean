import P4Linux.Boot.Flash

/-!
# main.c: from flash to the jump

Step 7 and what follows it in `bootloader/main.c`. The steps that are not about flash are parameters
(`Steps`); of those before step 7 only the console and the clocks know.

* `findPayloads_ends` -- a partition that step 7 accepted ends inside the chip, if it has any bytes,
  because the CRC pass has read it to its end;
* `copyPayload_ends` -- a payload that step 8 accepted has the CRC, and nothing else was written;
* `main_verified` -- **the images that were verified are the images jumped into**.
-/

namespace P4Linux.Boot

def kernelPa : Nat := 0x48000000
def dtbPa : Nat := 0x49000000
def psramVaddr : Nat := 0x48000000
def psramSize : Nat := 32 * 1024 * 1024

def partTypeKernel : UInt8 := 0x40
def partTypeDtb : UInt8 := 0x41
def partSubtypeNone : UInt8 := 0x00

structure Steps (ρ : Type) where
  clkInit : Proc (Board ρ) Unit
  cacheInit : Proc (Board ρ) Unit
  /-- `p4_psram_init`: the bytes mapped, or a failure -/
  psramInit : Proc (Board ρ) (Option Nat)
  cpuSetMhz : Proc (Board ρ) Bool
  psramTest : Nat → Proc (Board ρ) Bool
  psramAliasTest : Proc (Board ρ) Bool
  sdmmcInit : Proc (Board ρ) Bool
  emacRefclkProbe : Proc (Board ρ) Unit
  emacInit : Proc (Board ρ) Bool
  emacMdioScan : Proc (Board ρ) Unit
  cacheWriteBackAll : Proc (Board ρ) Unit

/-- The variables of `main` where it calls `jump_to_linux(KERNEL_PA, DTB_PA)`. -/
structure Handover where
  kernel : Partition
  dtb : Partition
  kernelCrc : BitVec 32
  dtbCrc : BitVec 32
  deriving DecidableEq, Repr

variable {ρ : Type} (rom : Rom ρ) (steps : Steps ρ)

/-- Step 7; `none` is `for (;;) { }`. -/
def findPayloads : Proc (Board ρ) (Option Handover) := do
  if (← flashInit rom) = false then pure none
  else if (← flashSelftest rom) = false then pure none
  else
    partDump rom
    match ← partFind rom partTypeKernel partSubtypeNone with
    | none => pure none
    | some kernel =>
      match ← partFind rom partTypeDtb partSubtypeNone with
      | none => pure none
      | some dtb =>
        match ← flashCrc32 rom kernel.offset kernel.size with
        | none => pure none
        | some kernelCrc =>
          match ← flashCrc32 rom dtb.offset dtb.size with
          | none => pure none
          | some dtbCrc => pure (some ⟨kernel, dtb, kernelCrc, dtbCrc⟩)

/-- Steps 5, 4b and 6: PSRAM trained, mapped and tested. -/
def bringUpPsram : Proc (Board ρ) Bool := do
  steps.clkInit
  steps.cacheInit
  match ← steps.psramInit with
  | none => pure false
  | some bytes =>
    let _ ← steps.cpuSetMhz
    if (← steps.psramTest bytes) = false then pure false
    else
      let _ ← steps.psramAliasTest
      pure true

/-- Step 8 for one payload. -/
def copyPayload (part : Partition) (crc : BitVec 32) (dest : Nat) : Proc (Board ρ) Bool := do
  if (← flashCopy rom part.offset part.size dest) = false then pure false
  else
    let copyCrc ← memCrc32 rom dest part.size
    pure (decide (copyCrc = crc))

/-- Steps 11 and 11b, neither of them fatal, and the last writeback. -/
def finish : Proc (Board ρ) Unit := do
  let _ ← steps.sdmmcInit
  steps.emacRefclkProbe
  if ← steps.emacInit then
    steps.emacMdioScan
    steps.cacheWriteBackAll
  else steps.cacheWriteBackAll

/-- `main` from step 7 to `jump_to_linux`; `none` where it stops in a loop before that. -/
def main : Proc (Board ρ) (Option Handover) := do
  match ← findPayloads rom with
  | none => pure none
  | some h =>
    if (← bringUpPsram steps) = false then pure none
    else if (← copyPayload rom h.kernel h.kernelCrc kernelPa) = false then pure none
    else if (← copyPayload rom h.dtb h.dtbCrc dtbPa) = false then pure none
    else
      finish steps
      pure (some h)

/-! ## 2. What the jump finds -/

section

open Proc

variable {rom} {steps}

/-- What step 7 knows of a partition: it took its CRC, and that can only be if it ends in the chip. -/
structure Passed (rom : Rom ρ) (part : Partition) (crc : BitVec 32) : Prop where
  taken : ∃ b b' : Board ρ, Ends (flashCrc32 rom part.offset part.size) b (some crc) b'
  inChip : part.size = 0 ∨ part.offset + part.size ≤ flashSize

theorem flashCrc32_passed (hg : rom.Guarded) {part : Partition} {crc : BitVec 32} {b b' : Board ρ}
    (hchip : b.chipSize = flashSize) (hoff : part.offset < 2 ^ 32)
    (h : Ends (flashCrc32 rom part.offset part.size) b (some crc) b') : Passed rom part crc where
  taken := ⟨b, b', h⟩
  inChip := hchip ▸ flashCrc32_ends hg (by rw [hchip]; decide) hoff h

theorem findPayloads_ends (hg : rom.Guarded) {b b' : Board ρ} {h : Handover}
    (hrun : Ends (findPayloads rom) b (some h) b') :
    Passed rom h.kernel h.kernelCrc ∧ Passed rom h.dtb h.dtbCrc := by
  obtain ⟨ok, b₁, hinit, hrun⟩ := ends_bind.mp hrun
  have hchip : b₁.chipSize = flashSize := by
    obtain ⟨-, rfl⟩ := Prod.mk.inj (ends_step.mp hinit)
    rfl
  split at hrun
  · cases (ends_pure.mp hrun).1
  obtain ⟨ok', b₂, hself, hrun⟩ := ends_bind.mp hrun
  have hchip : b₂.chipSize = flashSize :=
    (congrArg Prod.snd (leaves_flashSelftest.ends hself)).trans hchip
  split at hrun
  · cases (ends_pure.mp hrun).1
  obtain ⟨_, b₃, hdump, hrun⟩ := ends_bind.mp hrun
  have hchip : b₃.chipSize = flashSize := (congrArg Prod.snd (leaves_partDump.ends hdump)).trans hchip
  obtain ⟨kernel?, b₄, hkernel, hrun⟩ := ends_bind.mp hrun
  have hchip : b₄.chipSize = flashSize :=
    (congrArg Prod.snd ((leaves_partFind _ _).ends hkernel)).trans hchip
  cases kernel? with
  | none => cases (ends_pure.mp hrun).1
  | some kernel =>
    obtain ⟨dtb?, b₅, hdtb, hrun⟩ := ends_bind.mp hrun
    have hchip : b₅.chipSize = flashSize :=
      (congrArg Prod.snd ((leaves_partFind _ _).ends hdtb)).trans hchip
    cases dtb? with
    | none => cases (ends_pure.mp hrun).1
    | some dtb =>
      obtain ⟨kernelCrc?, b₆, hkc, hrun⟩ := ends_bind.mp hrun
      have hchip' : b₆.chipSize = flashSize :=
        (congrArg Prod.snd ((leaves_flashCrc32 _ _).ends hkc)).trans hchip
      cases kernelCrc? with
      | none => cases (ends_pure.mp hrun).1
      | some kernelCrc =>
        obtain ⟨dtbCrc?, b₇, hdc, hrun⟩ := ends_bind.mp hrun
        cases dtbCrc? with
        | none => cases (ends_pure.mp hrun).1
        | some dtbCrc =>
          cases (ends_pure.mp hrun).1
          exact ⟨flashCrc32_passed hg hchip (partFind_ends hkernel).1 hkc,
            flashCrc32_passed hg hchip' (partFind_ends hdtb).1 hdc⟩

theorem load_congr {b b' : Board ρ} {addr len : Nat}
    (h : ∀ a, addr ≤ a → a < addr + len → b'.mem a = b.mem a) : b'.load addr len = b.load addr len := by
  refine List.map_congr_left fun i hi => h _ (Nat.le_add_right _ _) ?_
  rw [List.mem_range] at hi
  omega

theorem copyPayload_ends {part : Partition} {crc : BitVec 32} {dest : Nat} {b b' : Board ρ}
    (h : Ends (copyPayload rom part crc dest) b true b') :
    rom.crc32le 0 (b'.load dest part.size) = crc ∧
      ∀ a, a < dest ∨ dest + part.size ≤ a → b'.mem a = b.mem a := by
  obtain ⟨ok, t, hcopy, h⟩ := ends_bind.mp h
  split at h
  · cases (ends_pure.mp h).1
  · obtain ⟨copyCrc, t', hcrc, h⟩ := ends_bind.mp h
    obtain ⟨hc, rfl⟩ := Prod.mk.inj (ends_step.mp hcrc)
    obtain ⟨heq, rfl⟩ := ends_pure.mp h
    exact ⟨hc.trans (of_decide_eq_true heq), fun a ha => flashCopy_ends hcopy ha⟩

/-- The steps after step 8 do not write to PSRAM. -/
structure Steps.LeavePsram (steps : Steps ρ) : Prop where
  sdmmcInit : Leaves Board.mem steps.sdmmcInit
  emacRefclkProbe : Leaves Board.mem steps.emacRefclkProbe
  emacInit : Leaves Board.mem steps.emacInit
  emacMdioScan : Leaves Board.mem steps.emacMdioScan
  cacheWriteBackAll : Leaves Board.mem steps.cacheWriteBackAll

theorem leaves_finish (hs : steps.LeavePsram) : Leaves Board.mem (finish steps) := by
  refine leaves_bind hs.sdmmcInit fun _ => leaves_bind hs.emacRefclkProbe fun _ =>
    leaves_bind hs.emacInit fun ok => leaves_ite ?_ hs.cacheWriteBackAll
  exact leaves_bind hs.emacMdioScan fun _ => hs.cacheWriteBackAll

/-- The board at the jump. -/
structure Verified (rom : Rom ρ) (h : Handover) (b : Board ρ) : Prop where
  kernelInside : psramVaddr ≤ kernelPa ∧ kernelPa + h.kernel.size ≤ psramVaddr + psramSize
  dtbInside : psramVaddr ≤ dtbPa ∧ dtbPa + h.dtb.size ≤ psramVaddr + psramSize
  disjoint : ∀ a, ¬ (kernelPa ≤ a ∧ a < kernelPa + h.kernel.size ∧ dtbPa ≤ a ∧ a < dtbPa + h.dtb.size)
  kernelCrc : rom.crc32le 0 (b.load kernelPa h.kernel.size) = h.kernelCrc
  dtbCrc : rom.crc32le 0 (b.load dtbPa h.dtb.size) = h.dtbCrc
  kernelPassed : Passed rom h.kernel h.kernelCrc
  dtbPassed : Passed rom h.dtb h.dtbCrc

/-- **What is jumped into is what was verified**: step 7 has bounded both sizes, so the copies fit
    their places, and neither the copy of the dtb nor what follows it touches the kernel. -/
theorem main_verified (hg : rom.Guarded) (hs : steps.LeavePsram) {b b' : Board ρ} {h : Handover}
    (hrun : Ends (main rom steps) b (some h) b') : Verified rom h b' := by
  obtain ⟨found, b₁, hfind, hrun⟩ := ends_bind.mp hrun
  cases found with
  | none => cases (ends_pure.mp hrun).1
  | some h' =>
    obtain ⟨hkp, hdp⟩ := findPayloads_ends hg hfind
    obtain ⟨ok, b₂, -, hrun⟩ := ends_bind.mp hrun
    split at hrun
    · cases (ends_pure.mp hrun).1
    obtain ⟨kernelOk, b₃, hkernel, hrun⟩ := ends_bind.mp hrun
    cases kernelOk with
    | false => cases (ends_pure.mp hrun).1
    | true =>
      obtain ⟨dtbOk, b₄, hdtb, hrun⟩ := ends_bind.mp hrun
      cases dtbOk with
      | false => cases (ends_pure.mp hrun).1
      | true =>
        obtain ⟨_, b₅, hfin, hrun⟩ := ends_bind.mp hrun
        obtain ⟨he, rfl⟩ := ends_pure.mp hrun
        obtain rfl : h' = h := Option.some.inj he
        obtain ⟨hkc, -⟩ := copyPayload_ends hkernel
        obtain ⟨hdc, hkeep⟩ := copyPayload_ends hdtb
        have hmem : b₅.mem = b₄.mem := (leaves_finish hs).ends hfin
        have hk := hkp.inChip
        have hd := hdp.inChip
        unfold flashSize at hk hd
        refine ⟨?_, ?_, ?_, ?_, ?_, hkp, hdp⟩
        · unfold psramVaddr kernelPa psramSize
          omega
        · unfold psramVaddr dtbPa psramSize
          omega
        · unfold kernelPa dtbPa
          omega
        · rw [← hkc]
          refine congrArg _ (load_congr fun a _ ha => ?_)
          rw [hmem]
          refine hkeep a (.inl ?_)
          unfold kernelPa at ha
          unfold dtbPa
          omega
        · rw [← hdc]
          exact congrArg _ (load_congr fun a _ _ => by rw [hmem])

end

end P4Linux.Boot
