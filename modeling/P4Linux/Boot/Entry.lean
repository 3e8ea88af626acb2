import P4Linux.Boot.Boots

/-!
# The words that are jumped to

`main` compares a CRC before it jumps, over as many bytes as the table entry has. Of no bytes every CRC is equal.

* `copyLoop_words` -- a copy that succeeds is one of whole words;
* `Handed` -- a run that jumped, with the boards before and after each of its two copies;
* `main_covers_iff` -- the first words of the kernel and the dtb **were compared** if and only if neither entry is
  empty.
-/

namespace P4Linux.Boot

open Proc Flashmap

variable {ρ : Type} {rom : Rom ρ} {steps : Steps ρ}

/-- Step 8 accepted the payload between the boards `b` and `b'`, and `a` is in the range that it copied and
    took the CRC of. -/
structure Covered (rom : Rom ρ) (part : Partition) (crc : BitVec 32) (dest : Nat) (b b' : Board ρ) (a : Nat) :
    Prop where
  accepted : Ends (copyPayload rom part crc dest) b true b'
  inside : dest ≤ a ∧ a < dest + part.size

/-- A run of `main` that jumps: step 8 copies the kernel on the board `b₂`, which leaves `b₃`, and the dtb on
    that, which leaves `b₄`. -/
structure Handed (rom : Rom ρ) (steps : Steps ρ) (b : Board ρ) (h : Handover) (b₂ b₃ b₄ b' : Board ρ) : Prop where
  before : ∃ b₁, Ends (findPayloads rom) b (some h) b₁ ∧ Ends (bringUpPsram steps) b₁ true b₂
  kernel : Ends (copyPayload rom h.kernel h.kernelCrc kernelPa) b₂ true b₃
  dtb : Ends (copyPayload rom h.dtb h.dtbCrc dtbPa) b₃ true b₄
  after : Ends (finish steps) b₄ () b'

theorem flashRead_words {offset dest len : Nat} {b b' : Board ρ} {data : List UInt8}
    (h : Ends (flashRead rom offset dest len) b (true, data) b') : len % 4 = 0 := by
  unfold flashRead at h
  split at h
  · cases (ends_pure.mp h).1
  · omega

theorem copyLoop_words {offset len dest n done : Nat} {b b' : Board ρ} (hd : done ≤ len)
    (h : Ends (copyLoop rom offset len dest n done) b true b') : (len - done) % 4 = 0 := by
  induction n generalizing done b with
  | zero => exact absurd h not_ends_stuck
  | succ n ih =>
    unfold copyLoop at h
    split at h
    · obtain ⟨⟨ok, data⟩, t, hr, h⟩ := ends_bind.mp h
      obtain ⟨_, t', -, h⟩ := ends_bind.mp h
      cases ok with
      | false => cases (ends_pure.mp h).1
      | true =>
        have hread := flashRead_words hr
        have hle := wantOf_le len done
        have hrest := ih (by omega) h
        omega
    · omega

theorem copyPayload_words {part : Partition} {crc : BitVec 32} {dest : Nat} {b b' : Board ρ}
    (h : Ends (copyPayload rom part crc dest) b true b') : part.size % 4 = 0 := by
  obtain ⟨ok, t, hcopy, h⟩ := ends_bind.mp h
  cases ok with
  | false => cases (ends_pure.mp h).1
  | true =>
    unfold flashCopy at hcopy
    split at hcopy
    · cases (ends_pure.mp hcopy).1
    · exact copyLoop_words (Nat.zero_le _) hcopy

/-- Of an accepted payload the first word is covered, unless there is none. -/
theorem covered_iff {part : Partition} {crc : BitVec 32} {dest : Nat} {b b' : Board ρ}
    (h : Ends (copyPayload rom part crc dest) b true b') :
    (∀ i < 4, Covered rom part crc dest b b' (dest + i)) ↔ part.size ≠ 0 := by
  have hwords := copyPayload_words h
  constructor
  · intro hall
    have hfirst := (hall 0 (by decide)).inside
    omega
  · intro hne i hi
    exact ⟨h, by omega⟩

/-- Every run that jumps has come through step 8 twice. -/
theorem main_handed {b b' : Board ρ} {h : Handover} (hrun : Ends (main rom steps) b (some h) b') :
    ∃ b₂ b₃ b₄, Handed rom steps b h b₂ b₃ b₄ b' := by
  obtain ⟨found, b₁, hfind, hrun⟩ := ends_bind.mp hrun
  cases found with
  | none => cases (ends_pure.mp hrun).1
  | some h' =>
    obtain ⟨ok, b₂, hpsram, hrun⟩ := ends_bind.mp hrun
    cases ok with
    | false => cases (ends_pure.mp hrun).1
    | true =>
      obtain ⟨kernelOk, b₃, hkernel, hrun⟩ := ends_bind.mp hrun
      cases kernelOk with
      | false => cases (ends_pure.mp hrun).1
      | true =>
        obtain ⟨dtbOk, b₄, hdtb, hrun⟩ := ends_bind.mp hrun
        cases dtbOk with
        | false => cases (ends_pure.mp hrun).1
        | true =>
          obtain ⟨_, b₅, hfin, hrun⟩ := ends_bind.mp hrun
          obtain ⟨he, rfl⟩ := ends_pure.mp hrun
          obtain rfl := Option.some.inj he
          exact ⟨b₂, b₃, b₄, ⟨b₁, hfind, hpsram⟩, hkernel, hdtb, hfin⟩

/-- **What is jumped to was compared** in the run itself if and only if neither table entry is empty. -/
theorem main_covers_iff {b b' : Board ρ} {h : Handover} (hrun : Ends (main rom steps) b (some h) b') :
    ∃ b₂ b₃ b₄, Handed rom steps b h b₂ b₃ b₄ b' ∧
      (((∀ i < 4, Covered rom h.kernel h.kernelCrc kernelPa b₂ b₃ (kernelPa + i)) ∧
        ∀ i < 4, Covered rom h.dtb h.dtbCrc dtbPa b₃ b₄ (dtbPa + i)) ↔ h.kernel.size ≠ 0 ∧ h.dtb.size ≠ 0) := by
  obtain ⟨b₂, b₃, b₄, hh⟩ := main_handed hrun
  exact ⟨b₂, b₃, b₄, hh, and_congr (covered_iff hh.kernel) (covered_iff hh.dtb)⟩

/-! ## Two tables -/

/-- A kernel of `size` bytes, and a dtb of a sector. -/
def entryParts (size : Int) : List Part :=
  [⟨[107], 0x40, 0, 0x20000, size⟩, ⟨[100], 0x41, 0, 0x21000, 0x1000⟩]

/-- A board with such a table boots, also if the kernel is empty. -/
theorem boots_entryParts {size : Int} (hsize : 0 ≤ size ∧ size ≤ 0x1000) {blob : List UInt8}
    (hblob : cmdBinary (fun _ => boardDigest) (entryParts size) = .ok blob) :
    ∃ h b', Ends (main (flashRom (tableFlash blob)) quietSteps) freshBoard (some h) b' ∧
      h.kernel.size = size.toNat ∧ h.dtb.size = 0x1000 := by
  have hk : First (entryParts size) 0x40 0 ⟨[107], 0x40, 0, 0x20000, size⟩ :=
    ⟨[], [⟨[100], 0x41, 0, 0x21000, 0x1000⟩], rfl, ⟨rfl, rfl⟩, fun _ h => by cases h⟩
  have hd : First (entryParts size) 0x41 0 ⟨[100], 0x41, 0, 0x21000, 0x1000⟩ := by
    refine ⟨[⟨[107], 0x40, 0, 0x20000, size⟩], [], rfl, ⟨rfl, rfl⟩, fun q hq => ?_⟩
    rw [List.mem_singleton.mp hq]
    intro h
    have htype : (0x40 : Int) = 0x41 := h.1
    exact absurd htype (by decide)
  have hin : ∀ p ∈ entryParts size, 0 ≤ p.size ∧ p.off + p.size ≤ flashSize := by
    intro p hp
    unfold flashSize
    rcases List.mem_cons.mp hp with rfl | hp
    · exact ⟨hsize.1, by dsimp only; omega⟩
    · rw [List.mem_singleton.mp hp]
      decide
  obtain ⟨h, b', hrun, hkernel, hdtb⟩ := main_boots (flashRom_stable _) (fun _ _ => rfl) quietSteps_work hblob
    (tabled_tableFlash blob) (Nat.le_of_ble_eq_true rfl) hk hd hin freshBoard
  exact ⟨h, b', hrun, congrArg Partition.size hkernel, congrArg Partition.size hdtb⟩

theorem main_covers_iff_sector : ∃ blob h b', cmdBinary (fun _ => boardDigest) (entryParts 0x1000) = .ok blob ∧
    Ends (main (flashRom (tableFlash blob)) quietSteps) freshBoard (some h) b' ∧
    ∃ b₂ b₃ b₄, Handed (flashRom (tableFlash blob)) quietSteps freshBoard h b₂ b₃ b₄ b' ∧
      (∀ i < 4, Covered (flashRom (tableFlash blob)) h.kernel h.kernelCrc kernelPa b₂ b₃ (kernelPa + i)) ∧
      ∀ i < 4, Covered (flashRom (tableFlash blob)) h.dtb h.dtbCrc dtbPa b₃ b₄ (dtbPa + i) := by
  obtain ⟨blob, hblob, -⟩ : ∃ blob, cmdBinary (fun _ => boardDigest) (entryParts 0x1000) = .ok blob ∧
      true = true := exists_ok (p := fun _ => true) (by decide +kernel)
  obtain ⟨h, b', hrun, hkernel, hdtb⟩ := boots_entryParts (by decide) hblob
  obtain ⟨b₂, b₃, b₄, hh, hiff⟩ := main_covers_iff hrun
  refine ⟨blob, h, b', hblob, hrun, b₂, b₃, b₄, hh, hiff.mpr ⟨?_, ?_⟩⟩
  · rw [hkernel]
    decide
  · rw [hdtb]
    decide

/-- flashmap.py writes a table with an empty kernel, and the bootloader jumps. -/
theorem not_covered_empty : ∃ blob h b', cmdBinary (fun _ => boardDigest) (entryParts 0) = .ok blob ∧
    Ends (main (flashRom (tableFlash blob)) quietSteps) freshBoard (some h) b' ∧
    ∀ b₂ b₃, ¬ Covered (flashRom (tableFlash blob)) h.kernel h.kernelCrc kernelPa b₂ b₃ kernelPa := by
  obtain ⟨blob, hblob, -⟩ : ∃ blob, cmdBinary (fun _ => boardDigest) (entryParts 0) = .ok blob ∧
      true = true := exists_ok (p := fun _ => true) (by decide +kernel)
  obtain ⟨h, b', hrun, hkernel, -⟩ := boots_entryParts (by decide) hblob
  refine ⟨blob, h, b', hblob, hrun, fun b₂ b₃ hc => ?_⟩
  have hin := hc.inside
  rw [hkernel] at hin
  exact absurd hin.2 (by decide)

end P4Linux.Boot
