import P4Linux.Boot.Main
import P4Linux.Boot.Table

/-!
# A board that boots

Nothing in `main` refuses a board that is as it should be: on flash that reads the same every time, with
the table of flashmap.py and the other steps in order, it comes to the jump.

* `Succeeds`, `Steps.Work` -- a step that returns, with what it returns; the steps outside this model;
* `Readable` -- a partition as the table of flashmap.py has them, aligned and inside the chip;
* `flashCrc32_readable`, `copyPayload_succeeds` -- its checksum and its copy come through;
* `partFind_first` -- the first partition of a kind is found with its own offset and size;
* `main_boots` -- **every such board comes to the jump**;
* `main_verified_board` -- one that does, with everything it was given.
-/

namespace P4Linux.Boot

open Proc Flashmap

variable {ρ : Type} {rom : Rom ρ} {steps : Steps ρ} {flash : Nat → UInt8}

/-! ## 1. Steps that succeed -/

/-- A step that succeeds with `p`, and leaves the chip size as it is. -/
def Succeeds {α : Type} (x : Proc (Board ρ) α) (p : α → Prop) : Prop :=
  ∀ b : Board ρ, ∃ a b', Ends x b a b' ∧ p a ∧ b'.chipSize = b.chipSize

/-- **The steps that `main` takes and this development does not model, in order**: each returns, the PSRAM is
    found and tests well. Whether the card and the network come up is left open, as `main` leaves it. -/
structure Steps.Work (steps : Steps ρ) : Prop where
  clkInit : Succeeds steps.clkInit fun _ => True
  cacheInit : Succeeds steps.cacheInit fun _ => True
  psramInit : Succeeds steps.psramInit fun bytes => bytes ≠ none
  cpuSetMhz : Succeeds steps.cpuSetMhz fun _ => True
  psramTest : ∀ bytes, Succeeds (steps.psramTest bytes) fun ok => ok = true
  psramAliasTest : Succeeds steps.psramAliasTest fun _ => True
  sdmmcInit : Succeeds steps.sdmmcInit fun _ => True
  emacRefclkProbe : Succeeds steps.emacRefclkProbe fun _ => True
  emacInit : Succeeds steps.emacInit fun _ => True
  emacMdioScan : Succeeds steps.emacMdioScan fun _ => True
  cacheWriteBackAll : Succeeds steps.cacheWriteBackAll fun _ => True

theorem Succeeds.bind {α β : Type} {x : Proc (Board ρ) α} {f : α → Proc (Board ρ) β} {p : α → Prop}
    {q : β → Prop} (hx : Succeeds x p) (hf : ∀ a, p a → Succeeds (f a) q) : Succeeds (x >>= f) q := by
  intro b
  obtain ⟨a, t, ha, hp, ht⟩ := hx b
  obtain ⟨c, b', hc, hq, hb'⟩ := hf a hp t
  exact ⟨c, b', ha.bind hc, hq, hb'.trans ht⟩

theorem succeeds_pure {α : Type} {a : α} {p : α → Prop} (h : p a) :
    Succeeds (pure a : Proc (Board ρ) α) p :=
  fun b => ⟨a, b, ends_pure.mpr ⟨rfl, rfl⟩, h, rfl⟩

/-- Of the bring-up, `main` asks that the PSRAM answers and that its test passes. -/
theorem bringUpPsram_succeeds (hw : steps.Work) : Succeeds (bringUpPsram steps) fun ok => ok = true := by
  refine hw.clkInit.bind fun _ _ => hw.cacheInit.bind fun _ _ => hw.psramInit.bind fun bytes hbytes => ?_
  cases bytes with
  | none => exact absurd rfl hbytes
  | some bytes =>
    refine hw.cpuSetMhz.bind fun _ _ => (hw.psramTest bytes).bind fun ok hok => ?_
    rw [if_neg (by rw [hok]; decide)]
    exact hw.psramAliasTest.bind fun _ _ => succeeds_pure rfl

theorem finish_succeeds (hw : steps.Work) : Succeeds (finish steps) fun _ => True := by
  refine hw.sdmmcInit.bind fun _ _ => hw.emacRefclkProbe.bind fun _ _ => hw.emacInit.bind fun ok _ => ?_
  split
  · exact hw.emacMdioScan.bind fun _ _ => hw.cacheWriteBackAll
  · exact hw.cacheWriteBackAll

/-- The copy writes memory; the chip size, on which the ROM's bounds check rests, is not in it. -/
theorem leaves_flashCopy (offset len dest : Nat) :
    Leaves Board.chipSize (flashCopy rom offset len dest) := by
  have hread : ∀ o d l, Leaves Board.chipSize (flashRead rom o d l) := fun o d l b =>
    congrArg Prod.snd (leaves_flashRead o d l b)
  have hloop : ∀ n done, Leaves Board.chipSize (copyLoop rom offset len dest n done) := by
    intro n
    induction n with
    | zero => exact fun _ => leaves_stuck
    | succ n ih =>
      intro done
      refine leaves_ite (leaves_bind (hread _ _ _) fun res => ?_) (leaves_pure _)
      refine leaves_bind (leaves_step fun _ => rfl) fun _ => ?_
      exact leaves_ite (leaves_pure _) (ih _)
  exact leaves_ite (leaves_pure _) (hloop _ _)

/-! ## 2. Partitions that can be read -/

/-- What step 7 and step 8 ask of a partition. -/
structure Readable (p : Partition) : Prop where
  offset : p.offset % 4 = 0
  size : p.size % 4 = 0
  inChip : p.offset + p.size ≤ flashSize

section

variable (hst : rom.Stable flash) (hcrc : ∀ c l, rom.crc32le c l = crc32 c l)

include hst hcrc

-- In the rest of this section the flash reads the same every time, and the ROM's CRC is zlib's.

/-- The CRC pass of step 7 is over the bytes of the partition. -/
theorem flashCrc32_readable {p : Partition} (hp : Readable p) {b : Board ρ} (hchip : b.chipSize = flashSize) :
    ∃ b', Ends (flashCrc32 rom p.offset p.size) b (some (crc32 0 (bytes flash p.offset p.size))) b' ∧
      b'.chipSize = flashSize := by
  obtain ⟨ho, hs, hin⟩ := hp
  obtain ⟨b', h⟩ : ∃ b', Ends (flashCrc32 rom p.offset p.size) b
      (some (crc32 0 (bytes flash p.offset p.size))) b' :=
    flashCrc32_stable hst hcrc ho (by rw [hchip]; decide) (by omega)
  exact ⟨b', h, (congrArg Prod.snd ((leaves_flashCrc32 _ _).ends h)).trans hchip⟩

/-- The self-test reads one range twice and compares. -/
theorem flashSelftest_stable {b : Board ρ} (hchip : b.chipSize = flashSize) :
    ∃ b', Ends (flashSelftest rom) b true b' := by
  have hread : Readable ⟨0x20000, 0x10000, []⟩ := ⟨rfl, rfl, by decide⟩
  obtain ⟨t, ht, htc⟩ := flashCrc32_readable hst hcrc hread hchip
  obtain ⟨t', ht', -⟩ := flashCrc32_readable hst hcrc hread htc
  refine ⟨t', ends_bind.mpr ⟨_, t, ht, ends_bind.mpr ⟨_, t', ht', ?_⟩⟩⟩
  exact ends_pure.mpr ⟨decide_eq_true rfl, rfl⟩

/-- A copy has the CRC that was computed from flash, because it is the same bytes. -/
theorem copyPayload_succeeds {p : Partition} (hp : Readable p) {dest : Nat} (hdest : dest % 4 = 0)
    {b : Board ρ} (hchip : b.chipSize = flashSize) :
    ∃ b', Ends (copyPayload rom p (crc32 0 (bytes flash p.offset p.size)) dest) b true b' ∧
      b'.chipSize = flashSize := by
  obtain ⟨ho, hs, hin⟩ := hp
  obtain ⟨t, ht, hload⟩ : ∃ t, Ends (flashCopy rom p.offset p.size dest) b true t ∧
      t.load dest p.size = bytes flash p.offset p.size :=
    flashCopy_stable hst ho hs hdest (by rw [hchip]; decide) (by omega)
  refine ⟨t, ends_bind.mpr ⟨_, t, ht, ends_bind.mpr ⟨_, t, ends_step.mpr rfl, ?_⟩⟩,
    ((leaves_flashCopy _ _ _).ends ht).trans hchip⟩
  refine ends_pure.mpr ⟨?_, rfl⟩
  rw [hload, hcrc]
  exact decide_eq_true rfl

/-- What `p4_part_find` returns for `p`. -/
def found (p : Part) : Partition := ⟨p.off.toNat, p.size.toNat, ljust p.name ++ [0]⟩

omit hst hcrc in
/-- `check` of flashmap.py asks for whole sectors, so words are whole too. -/
theorem readable_found {parts : List Part} {p : Part} (hcheck : check parts = .ok ()) (hp : p ∈ parts)
    (hin : p.off + p.size ≤ flashSize) (hsize : 0 ≤ p.size) : Readable (found p) := by
  obtain ⟨hoff, hoff', hsize'⟩ := checkPart_ok.mp ((check_ok.mp hcheck).1 p hp)
  unfold flashSize at hin
  unfold found
  constructor
  · dsimp only
    omega
  · dsimp only
    omega
  · unfold flashSize
    dsimp only
    omega

/-- `p` is the first partition of its type and subtype. -/
def First (parts : List Part) (ptype psub : Int) (p : Part) : Prop :=
  ∃ before after, parts = before ++ p :: after ∧ (p.ptype = ptype ∧ p.psub = psub) ∧
    ∀ q ∈ before, ¬ (q.ptype = ptype ∧ q.psub = psub)

omit hcrc in
/-- `p4_part_find` stops at the first match, and the table is in the order of the list. -/
theorem partFind_first {md5 : List UInt8 → Vector UInt8 16} {parts : List Part} {blob : List UInt8}
    (hblob : cmdBinary md5 parts = .ok blob) (hf : Tabled flash blob)
    (hlen : parts.length ≤ partMaxEntries) {ptype psub : Int} {p : Part} (hp : First parts ptype psub p)
    {b : Board ρ} (hchip : b.chipSize = flashSize) :
    ∃ b', Ends (partFind rom (UInt8.ofNat ptype.toNat) (UInt8.ofNat psub.toNat)) b (some (found p)) b' ∧
      b'.chipSize = flashSize := by
  obtain ⟨before, after, hparts, ⟨rfl, rfl⟩, hfirst⟩ := hp
  obtain ⟨b', h⟩ := (readsBack_of hst hblob hf hchip hlen).finds before p after hparts hfirst
  exact ⟨b', h, (congrArg Prod.snd ((leaves_partFind _ _).ends h)).trans hchip⟩

omit hcrc in
/-- The dump visits the table and changes nothing. -/
theorem partDump_table {md5 : List UInt8 → Vector UInt8 16} {parts : List Part} {blob : List UInt8}
    (hblob : cmdBinary md5 parts = .ok blob) (hf : Tabled flash blob) {b : Board ρ}
    (hchip : b.chipSize = flashSize) : ∃ b', Ends (partDump rom) b () b' ∧ b'.chipSize = flashSize := by
  obtain ⟨b', h⟩ : ∃ b', Ends (partWalk rom (fun _ _ => (true, ())) ()) b
      (true, feed (fun _ _ => (true, ())) ((parts.map partEntry).take partMaxEntries) ()) b' :=
    walk_table hst hblob hf () hchip
  have hdump : Ends (partDump rom) b () b' := h.bind (ends_pure.mpr ⟨rfl, rfl⟩)
  exact ⟨b', hdump, (congrArg Prod.snd (leaves_partDump.ends hdump)).trans hchip⟩

/-! ## 3. The run -/

/-- **The board boots**, and what it hands over are the partitions of the table. -/
theorem main_boots (hw : steps.Work) {md5 : List UInt8 → Vector UInt8 16} {parts : List Part}
    {blob : List UInt8} (hblob : cmdBinary md5 parts = .ok blob) (hf : Tabled flash blob)
    (hlen : parts.length ≤ partMaxEntries) {kernel dtb : Part} (hk : First parts 0x40 0 kernel)
    (hd : First parts 0x41 0 dtb) (hin : ∀ p ∈ parts, 0 ≤ p.size ∧ p.off + p.size ≤ flashSize)
    (b : Board ρ) : ∃ h b', Ends (main rom steps) b (some h) b' ∧ h.kernel = found kernel ∧
      h.dtb = found dtb := by
  have hcheck : check parts = .ok () := by
    unfold cmdBinary at hblob
    simp only [bind_ok] at hblob
    exact hblob.choose_spec.1
  have hread : ∀ {ptype psub : Int} {p : Part}, First parts ptype psub p → Readable (found p) := by
    rintro ptype psub p ⟨before, after, hparts, -⟩
    have hp : p ∈ parts := by
      rw [hparts]
      exact List.mem_append_right _ List.mem_cons_self
    exact readable_found hcheck hp (hin p hp).2 (hin p hp).1
  -- step 7 first: each state has the chip size that `flashInit` set
  obtain ⟨b₁, hb₁⟩ : ∃ b₁ : Board ρ, b₁ = { b with rom := rom.enterLowSpeed b.rom, chipSize := flashSize } :=
    ⟨_, rfl⟩
  have hinit : Ends (flashInit rom) b true b₁ := by
    rw [hb₁]
    exact ends_step.mpr (Prod.ext (decide_eq_true (rfl : flashSize = flashSize)) rfl)
  have hc₁ : b₁.chipSize = flashSize := by rw [hb₁]
  obtain ⟨b₂, hself⟩ := flashSelftest_stable hst hcrc hc₁
  have hc₂ := (congrArg Prod.snd (leaves_flashSelftest.ends hself)).trans hc₁
  obtain ⟨b₃, hdump, hc₃⟩ := partDump_table hst hblob hf hc₂
  obtain ⟨b₄, hkernel, hc₄⟩ := partFind_first hst hblob hf hlen hk hc₃
  obtain ⟨b₅, hdtb, hc₅⟩ := partFind_first hst hblob hf hlen hd hc₄
  obtain ⟨b₆, hkc, hc₆⟩ := flashCrc32_readable hst hcrc (hread hk) hc₅
  obtain ⟨b₇, hdc, hc₇⟩ := flashCrc32_readable hst hcrc (hread hd) hc₆
  -- then the PSRAM, and step 8 for one payload after the other
  obtain ⟨_, b₈, hpsram, rfl, hc₈⟩ := bringUpPsram_succeeds hw b₇
  have hkpa : kernelPa % 4 = 0 := rfl
  have hdpa : dtbPa % 4 = 0 := rfl
  obtain ⟨b₉, hkcopy, hc₉⟩ := copyPayload_succeeds hst hcrc (hread hk) hkpa (hc₈.trans hc₇)
  obtain ⟨b₁₀, hdcopy, hc₁₀⟩ := copyPayload_succeeds hst hcrc (hread hd) hdpa hc₉
  obtain ⟨_, b₁₁, hfin, -, -⟩ := finish_succeeds hw b₁₀
  obtain ⟨h, hh⟩ : ∃ h : Handover, h = ⟨found kernel, found dtb,
      crc32 0 (bytes flash (found kernel).offset (found kernel).size),
      crc32 0 (bytes flash (found dtb).offset (found dtb).size)⟩ := ⟨_, rfl⟩
  -- and the steps put together: no check on the way returns early
  have hfind : Ends (findPayloads rom) b (some h) b₇ := by
    rw [hh]
    refine hinit.bind ?_
    rw [if_neg (by decide)]
    refine hself.bind ?_
    rw [if_neg (by decide)]
    exact hdump.bind (hkernel.bind (hdtb.bind (hkc.bind (hdc.bind (ends_pure.mpr ⟨rfl, rfl⟩)))))
  have hrun : Ends (main rom steps) b (some h) b₁₁ := by
    refine hfind.bind (hpsram.bind ?_)
    rw [if_neg (by decide), hh]
    refine hkcopy.bind ?_
    rw [if_neg (by decide)]
    refine hdcopy.bind ?_
    rw [if_neg (by decide)]
    exact hfin.bind (ends_pure.mpr ⟨rfl, rfl⟩)
  exact ⟨h, b₁₁, hrun, by rw [hh], by rw [hh]⟩

end

/-! ## 4. The board's own table -/

/-- The concrete ROM refuses a read past the chip, as the real one does. -/
theorem flashRom_guarded (flash : Nat → UInt8) : (flashRom flash).Guarded where
  refuses chip offset len s h := decide_eq_false (by omega)
  fills chip offset len s h := by
    have hin : offset + len ≤ chip := of_decide_eq_true h
    show (if offset + len ≤ chip then bytes flash offset len else []).length = len
    rw [if_pos hin, length_bytes]

/-- Steps that find everything in order and touch nothing. -/
def quietSteps : Steps Unit where
  clkInit := pure ()
  cacheInit := pure ()
  psramInit := pure (some psramSize)
  cpuSetMhz := pure true
  psramTest _ := pure true
  psramAliasTest := pure true
  sdmmcInit := pure true
  emacRefclkProbe := pure ()
  emacInit := pure true
  emacMdioScan := pure ()
  cacheWriteBackAll := pure ()

theorem quietSteps_work : quietSteps.Work where
  clkInit := succeeds_pure trivial
  cacheInit := succeeds_pure trivial
  psramInit := succeeds_pure (Option.some_ne_none _)
  cpuSetMhz := succeeds_pure trivial
  psramTest _ := succeeds_pure rfl
  psramAliasTest := succeeds_pure trivial
  sdmmcInit := succeeds_pure trivial
  emacRefclkProbe := succeeds_pure trivial
  emacInit := succeeds_pure trivial
  emacMdioScan := succeeds_pure trivial
  cacheWriteBackAll := succeeds_pure trivial

theorem quietSteps_leavePsram : quietSteps.LeavePsram where
  sdmmcInit := leaves_pure _
  emacRefclkProbe := leaves_pure _
  emacInit := leaves_pure _
  emacMdioScan := leaves_pure _
  cacheWriteBackAll := leaves_pure _

/-- The board boots from `partitions.csv`, and jumps into what it verified. -/
theorem main_verified_board : ∃ blob h b', cmdBinary (fun _ => boardDigest) boardParts = .ok blob ∧
    Ends (main (flashRom (tableFlash blob)) quietSteps) freshBoard (some h) b' ∧
    Verified (flashRom (tableFlash blob)) h b' := by
  obtain ⟨blob, hblob, -⟩ : ∃ blob, cmdBinary (fun _ => boardDigest) boardParts = .ok blob ∧
      true = true := exists_ok (p := fun _ => true) (by decide +kernel)
  have hk : First boardParts 0x40 0 ⟨[107, 101, 114, 110, 101, 108], 0x40, 0, 0x20000, 0xC00000⟩ :=
    ⟨[], [⟨[100, 116, 98], 0x41, 0, 0xC20000, 0x10000⟩], rfl, ⟨rfl, rfl⟩, fun _ h => by cases h⟩
  have hd : First boardParts 0x41 0 ⟨[100, 116, 98], 0x41, 0, 0xC20000, 0x10000⟩ := by
    refine ⟨[⟨[107, 101, 114, 110, 101, 108], 0x40, 0, 0x20000, 0xC00000⟩], [], rfl, ⟨rfl, rfl⟩, ?_⟩
    intro q hq
    rw [List.mem_singleton.mp hq]
    decide
  obtain ⟨h, b', hrun, -⟩ := main_boots (flashRom_stable _) (fun _ _ => rfl) quietSteps_work hblob
    (tabled_tableFlash blob) (by decide) hk hd (by decide) freshBoard
  exact ⟨blob, h, b', hblob, hrun, main_verified (flashRom_guarded _) quietSteps_leavePsram hrun⟩

end P4Linux.Boot
