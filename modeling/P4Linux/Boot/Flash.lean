import Mathlib.Tactic.Common
import P4Linux.Lib.Crc32
import P4Linux.Lib.Proc

/-!
# p4_flash.c

Flash reads, the partition table, the CRC pass and the copy into PSRAM (`bootloader/p4/p4_flash.c`).
32-bit integers are numbers, reduced where a sum can wrap. Memory is what the CPU sees of it, so writing
back and invalidating its cache lines does nothing here; what is printed is left out.

* `Rom`, `Board` -- the ROM as a parameter: `spiflashRead` takes the chip size, an offset and a length,
  and returns whether the read succeeded and what it stored;
* `flashRead`, `partWalk`, `flashCrc32`, `flashCopy` -- the functions of the file;
* `leaves_flashRead`, … -- which of them leave memory and the chip size alone;
* `flashCrc32_ends`, `flashCopy_ends` -- a CRC pass that came through stayed inside the chip, and a copy
  writes nothing but its destination;
* `partFind_ends` -- a partition that was found has 32-bit fields.
-/

namespace P4Linux.Boot

/-! ## 1. The board -/

structure Rom (ρ : Type) where
  /-- `esp_rom_spiflash_read` with `g_rom_flashchip.chip_size`, `offset` and `len` -/
  spiflashRead : Nat → Nat → Nat → ρ → (Bool × List UInt8) × ρ
  /-- `mspi_timing_enter_low_speed_mode(true)` -/
  enterLowSpeed : ρ → ρ
  /-- `esp_rom_crc32_le` -/
  crc32le : BitVec 32 → List UInt8 → BitVec 32

structure Board (ρ : Type) where
  rom : ρ
  chipSize : Nat
  mem : Nat → UInt8

variable {ρ : Type}

/-- The bytes at `addr`. -/
def Board.load (b : Board ρ) (addr len : Nat) : List UInt8 :=
  (List.range len).map fun i => b.mem (addr + i)

def Board.store (b : Board ρ) (addr : Nat) (data : List UInt8) : Board ρ :=
  { b with mem := fun a => if addr ≤ a ∧ a < addr + data.length then data.getD (a - addr) 0 else b.mem a }

def u32 (x : Nat) : Nat := x % 2 ^ 32

/-! ## 2. Reads -/

def partTableOffset : Nat := 0x8000
def partTableLen : Nat := 0x1000
def partMaxEntries : Nat := partTableLen / 32
def partMagic : Nat := 0x50AA
def partMagicMd5 : Nat := 0xEBEB
def flashSize : Nat := 16 * 1024 * 1024

/-- `sizeof(s_buf)`. -/
def bufSize : Nat := 4096

/-- The address of a buffer in SRAM, which is aligned. -/
def sram : Nat := 0

variable (rom : Rom ρ)

/-- `p4_flash_init`. -/
def flashInit : Proc (Board ρ) Bool :=
  Proc.step fun b =>
    let b := { b with rom := rom.enterLowSpeed b.rom, chipSize := flashSize }
    (b.chipSize = flashSize, b)

/-- `p4_flash_read`: its result, and what it stored at `dest`. -/
def flashRead (offset dest len : Nat) : Proc (Board ρ) (Bool × List UInt8) :=
  if offset % 4 ≠ 0 ∨ len % 4 ≠ 0 ∨ dest % 4 ≠ 0 then pure (false, [])
  else Proc.step fun b =>
    let (r, s) := rom.spiflashRead b.chipSize offset len b.rom
    (r, { b with rom := s })

/-! ## 3. The partition table -/

/-- `p4_part_entry_t`. -/
structure PartEntry where
  magic : Nat
  type : UInt8
  subtype : UInt8
  offset : Nat
  size : Nat
  label : List UInt8
  flags : Nat
  deriving DecidableEq, Repr

/-- What 32 bytes are as an entry. -/
def entryOf (l : List UInt8) : PartEntry where
  magic := le (l.take 2)
  type := l.getD 2 0
  subtype := l.getD 3 0
  offset := le ((l.drop 4).take 4)
  size := le ((l.drop 8).take 4)
  label := (l.drop 12).take 16
  flags := le ((l.drop 28).take 4)

/-- The loop of `part_walk` from entry `i` on, with `n` entries to go. -/
def walkFrom {τ : Type} (visit : PartEntry → τ → Bool × τ) : Nat → Nat → τ → Proc (Board ρ) (Bool × τ)
  | 0, _, ctx => pure (true, ctx)
  | n + 1, i, ctx => do
    let (ok, bytes) ← flashRead rom (partTableOffset + i * 32) sram 32
    if ok = false then pure (false, ctx)
    else
      let e := entryOf bytes
      if e.magic = partMagicMd5 then walkFrom visit n (i + 1) ctx
      else if e.magic ≠ partMagic then pure (true, ctx)
      else
        match visit e ctx with
        | (true, ctx) => walkFrom visit n (i + 1) ctx
        | (false, ctx) => pure (true, ctx) -- the visitor found what it wanted

def partWalk {τ : Type} (visit : PartEntry → τ → Bool × τ) (ctx : τ) : Proc (Board ρ) (Bool × τ) :=
  walkFrom rom visit partMaxEntries 0 ctx

/-- `p4_partition_t`. -/
structure Partition where
  offset : Nat
  size : Nat
  label : List UInt8
  deriving DecidableEq, Repr

def findVisit (type subtype : UInt8) (e : PartEntry) (found : Option Partition) :
    Bool × Option Partition :=
  if e.type ≠ type ∨ e.subtype ≠ subtype then (true, found)
  else (false, some ⟨e.offset, e.size, e.label ++ [0]⟩)

/-- `p4_part_find`. -/
def partFind (type subtype : UInt8) : Proc (Board ρ) (Option Partition) := do
  let (ok, found) ← partWalk rom (findVisit type subtype) none
  if ok = false then pure none else pure found

/-- `p4_part_dump`. -/
def partDump : Proc (Board ρ) Unit := do
  let _ ← partWalk rom (fun _ _ => (true, ())) ()
  pure ()

/-! ## 4. CRC and copy -/

/-- `want` for `done` of `len` bytes. -/
def wantOf (len done : Nat) : Nat := if bufSize < len - done then bufSize else len - done

/-- `while (done < len)` of `p4_flash_crc32`. -/
def crcLoop (offset len : Nat) : Nat → Nat → BitVec 32 → Proc (Board ρ) (Option (BitVec 32))
  | 0, _, _ => Proc.stuck
  | n + 1, done, crc =>
    if done < len then do
      let want := wantOf len done
      let rd := (want + 3) / 4 * 4
      let (ok, buf) ← flashRead rom (u32 (offset + done)) sram rd
      if ok = false then pure none
      else crcLoop offset len n (done + want) (rom.crc32le crc (buf.take want))
    else pure (some crc)

/-- `p4_flash_crc32`. -/
def flashCrc32 (offset len : Nat) : Proc (Board ρ) (Option (BitVec 32)) :=
  if offset % 4 ≠ 0 then pure none else crcLoop rom offset len (len / bufSize + 2) 0 0

/-- `p4_mem_crc32`. -/
def memCrc32 (addr len : Nat) : Proc (Board ρ) (BitVec 32) :=
  Proc.step fun b => (rom.crc32le 0 (b.load addr len), b)

/-- `while (done < len)` of `p4_flash_copy`. -/
def copyLoop (offset len dest : Nat) : Nat → Nat → Proc (Board ρ) Bool
  | 0, _ => Proc.stuck
  | n + 1, done =>
    if done < len then do
      let want := wantOf len done
      let (ok, data) ← flashRead rom (u32 (offset + done)) (dest + done) want
      Proc.step fun b => ((), b.store (dest + done) (data.take want))
      if ok = false then pure false else copyLoop offset len dest n (done + want)
    else pure true

/-- `p4_flash_copy`. -/
def flashCopy (offset len dest : Nat) : Proc (Board ρ) Bool :=
  if dest % 4 ≠ 0 ∨ offset % 4 ≠ 0 then pure false
  else copyLoop rom offset len dest (len / bufSize + 2) 0

/-- `p4_flash_selftest`. -/
def flashSelftest : Proc (Board ρ) Bool := do
  match ← flashCrc32 rom 0x20000 0x10000 with
  | none => pure false
  | some a =>
    match ← flashCrc32 rom 0x20000 0x10000 with
    | none => pure false
    | some b => pure (a = b)

/-! ## 5. What each function does to the board -/

/-- A ROM that refuses to read past the end of the chip, and that reads what it was asked to. -/
structure Rom.Guarded (rom : Rom ρ) : Prop where
  refuses : ∀ chip offset len s, chip < offset + len →
    (rom.spiflashRead chip offset len s).1.1 = false
  fills : ∀ chip offset len s, (rom.spiflashRead chip offset len s).1.1 = true →
    (rom.spiflashRead chip offset len s).1.2.length = len

/-- Memory and the chip size. -/
def Board.seen (b : Board ρ) : (Nat → UInt8) × Nat := (b.mem, b.chipSize)

variable {rom}

open Proc

theorem leaves_flashRead (offset dest len : Nat) :
    Leaves Board.seen (flashRead rom offset dest len) :=
  leaves_ite (leaves_pure _) (leaves_step fun _ => rfl)

theorem leaves_walkFrom {τ : Type} (visit : PartEntry → τ → Bool × τ) (n i : Nat) (ctx : τ) :
    Leaves Board.seen (walkFrom rom visit n i ctx) := by
  induction n generalizing i ctx with
  | zero => exact leaves_pure _
  | succ n ih =>
    refine leaves_bind (leaves_flashRead _ _ _) fun res => ?_
    refine leaves_ite (leaves_pure _) (leaves_ite (ih _ _) (leaves_ite (leaves_pure _) ?_))
    rcases visit (entryOf res.2) ctx with ⟨_ | _, ctx'⟩
    · exact leaves_pure _
    · exact ih _ _

theorem leaves_partFind (type subtype : UInt8) : Leaves Board.seen (partFind rom type subtype) :=
  leaves_bind (leaves_walkFrom _ _ _ _) fun _ => leaves_ite (leaves_pure _) (leaves_pure _)

theorem leaves_partDump : Leaves Board.seen (partDump rom) :=
  leaves_bind (leaves_walkFrom _ _ _ _) fun _ => leaves_pure _

theorem leaves_crcLoop (offset len n done : Nat) (crc : BitVec 32) :
    Leaves Board.seen (crcLoop rom offset len n done crc) := by
  induction n generalizing done crc with
  | zero => exact leaves_stuck
  | succ n ih =>
    refine leaves_ite (leaves_bind (leaves_flashRead _ _ _) fun res => ?_) (leaves_pure _)
    exact leaves_ite (leaves_pure _) (ih _ _)

theorem leaves_flashCrc32 (offset len : Nat) : Leaves Board.seen (flashCrc32 rom offset len) :=
  leaves_ite (leaves_pure _) (leaves_crcLoop _ _ _ _ _)

theorem leaves_flashSelftest : Leaves Board.seen (flashSelftest rom) := by
  refine leaves_bind (leaves_flashCrc32 _ _) fun a => ?_
  cases a with
  | none => exact leaves_pure _
  | some a =>
    refine leaves_bind (leaves_flashCrc32 _ _) fun b => ?_
    cases b with
    | none => exact leaves_pure _
    | some b => exact leaves_pure _

/-- A read that succeeded lies in the chip. -/
theorem flashRead_ends (hg : rom.Guarded) {offset dest len : Nat} {b b' : Board ρ} {data : List UInt8}
    (h : Ends (flashRead rom offset dest len) b (true, data) b') :
    offset + len ≤ b.chipSize ∧ data.length = len := by
  unfold flashRead at h
  split at h
  · cases (ends_pure.mp h).1
  · obtain ⟨hr, -⟩ := Prod.mk.inj (ends_step.mp h)
    have hok : (rom.spiflashRead b.chipSize offset len b.rom).1.1 = true := by rw [hr]
    refine ⟨Nat.le_of_not_lt fun hlt => ?_, ?_⟩
    · rw [hg.refuses _ _ _ _ hlt] at hok
      cases hok
    · have hlen := hg.fills _ _ _ _ hok
      rw [hr] at hlen
      exact hlen

theorem wantOf_le (len done : Nat) : done + wantOf len done ≤ len ∨ len < done := by
  unfold wantOf bufSize
  split <;> omega

theorem wantOf_pos {len done : Nat} (h : done < len) : 0 < wantOf len done := by
  unfold wantOf bufSize
  split <;> omega

/-- **A CRC that was computed** lies in the chip, from `done` on: the reads follow each other, and none
    of them can wrap. -/
theorem crcLoop_ends (hg : rom.Guarded) {offset len n done : Nat} {crc c : BitVec 32} {b b' : Board ρ}
    (hchip : b.chipSize < 2 ^ 32) (hd : done < len)
    (h : Ends (crcLoop rom offset len n done crc) b (some c) b') :
    u32 (offset + done) + (len - done) ≤ b.chipSize := by
  induction n generalizing done crc b with
  | zero => exact absurd h not_ends_stuck
  | succ n ih =>
    unfold crcLoop at h
    rw [if_pos hd] at h
    obtain ⟨⟨ok, buf⟩, t, hr, h⟩ := ends_bind.mp h
    cases ok with
    | false => cases (ends_pure.mp h).1
    | true =>
      have hin := (flashRead_ends hg hr).1
      have hseen := (leaves_flashRead _ _ _).ends hr
      have hchip' : t.chipSize = b.chipSize := congrArg Prod.snd hseen
      have hpos := wantOf_pos hd
      have hle := wantOf_le len done
      by_cases hmore : done + wantOf len done < len
      · have hrest := ih (by rw [hchip']; exact hchip) hmore h
        rw [hchip'] at hrest
        unfold u32 at *
        omega
      · omega

theorem flashCrc32_ends (hg : rom.Guarded) {offset len : Nat} {c : BitVec 32} {b b' : Board ρ}
    (hchip : b.chipSize < 2 ^ 32) (hoff : offset < 2 ^ 32)
    (h : Ends (flashCrc32 rom offset len) b (some c) b') : len = 0 ∨ offset + len ≤ b.chipSize := by
  unfold flashCrc32 at h
  split at h
  · cases (ends_pure.mp h).1
  · by_cases hlen : len = 0
    · exact .inl hlen
    · have hin := crcLoop_ends hg hchip (Nat.pos_of_ne_zero hlen) h
      unfold u32 at hin
      omega

theorem mem_store (b : Board ρ) {addr a : Nat} {data : List UInt8}
    (h : a < addr ∨ addr + data.length ≤ a) : (b.store addr data).mem a = b.mem a := by
  show (if _ then _ else _) = _
  rw [if_neg (by omega)]

/-- **A copy** writes nothing but its destination. -/
theorem copyLoop_ends {offset len dest n done : Nat} {ok : Bool} {b b' : Board ρ} (hd : done ≤ len)
    (h : Ends (copyLoop rom offset len dest n done) b ok b') {a : Nat} (ha : a < dest ∨ dest + len ≤ a) :
    b'.mem a = b.mem a := by
  induction n generalizing done b with
  | zero => exact absurd h not_ends_stuck
  | succ n ih =>
    unfold copyLoop at h
    split at h
    · obtain ⟨⟨ok', data⟩, t, hr, h⟩ := ends_bind.mp h
      obtain ⟨_, t', hs, h⟩ := ends_bind.mp h
      obtain rfl : t.store (dest + done) (data.take (wantOf len done)) = t' := congrArg Prod.snd hs
      have hmem : t.mem = b.mem := congrArg Prod.fst ((leaves_flashRead _ _ _).ends hr)
      have hle := wantOf_le len done
      have hlen := List.length_take_le (wantOf len done) data
      have hout : a < dest + done ∨ dest + done + (data.take (wantOf len done)).length ≤ a := by
        omega
      have hstore := mem_store t hout
      rw [hmem] at hstore
      split at h
      · obtain ⟨-, rfl⟩ := ends_pure.mp h
        exact hstore
      · exact (ih (by omega) h).trans hstore
    · obtain ⟨-, rfl⟩ := ends_pure.mp h
      rfl

theorem flashCopy_ends {offset len dest : Nat} {ok : Bool} {b b' : Board ρ}
    (h : Ends (flashCopy rom offset len dest) b ok b') {a : Nat} (ha : a < dest ∨ dest + len ≤ a) :
    b'.mem a = b.mem a := by
  unfold flashCopy at h
  split at h
  · obtain ⟨-, rfl⟩ := ends_pure.mp h
    rfl
  · exact copyLoop_ends (Nat.zero_le _) h ha

/-! ## 6. Entries -/

theorem entryOf_lt (l : List UInt8) : (entryOf l).offset < 2 ^ 32 ∧ (entryOf l).size < 2 ^ 32 := by
  have h : ∀ k : List UInt8, le (k.take 4) < 2 ^ 32 := fun k =>
    Nat.lt_of_lt_of_le (le_lt _) (Nat.pow_le_pow_right (by decide) (List.length_take_le 4 k))
  exact ⟨h _, h _⟩

/-- What holds of every entry that is visited holds at the end of the walk. -/
theorem walkFrom_ends {τ : Type} {visit : PartEntry → τ → Bool × τ} {P : τ → Prop}
    (hv : ∀ l ctx, P ctx → P (visit (entryOf l) ctx).2) {n i : Nat} {ctx ctx' : τ} {ok : Bool}
    {b b' : Board ρ} (hP : P ctx) (h : Ends (walkFrom rom visit n i ctx) b (ok, ctx') b') : P ctx' := by
  induction n generalizing i ctx b with
  | zero =>
    cases (ends_pure.mp h).1
    exact hP
  | succ n ih =>
    unfold walkFrom at h
    obtain ⟨⟨ok', bytes⟩, t, -, h⟩ := ends_bind.mp h
    have hP' := hv bytes ctx hP
    dsimp only at h
    split at h
    · cases (ends_pure.mp h).1
      exact hP
    · split at h
      · exact ih hP h
      · split at h
        · cases (ends_pure.mp h).1
          exact hP
        · rcases hvis : visit (entryOf bytes) ctx with ⟨_ | _, ctx''⟩
          · rw [hvis] at h hP'
            cases (ends_pure.mp h).1
            exact hP'
          · rw [hvis] at h hP'
            exact ih hP' h

/-- The fields of a partition that was found are 32-bit numbers. -/
theorem partFind_ends {type subtype : UInt8} {p : Partition} {b b' : Board ρ}
    (h : Ends (partFind rom type subtype) b (some p) b') : p.offset < 2 ^ 32 ∧ p.size < 2 ^ 32 := by
  obtain ⟨⟨ok, found⟩, t, hw, h⟩ := ends_bind.mp h
  have hP : ∀ p, found = some p → p.offset < 2 ^ 32 ∧ p.size < 2 ^ 32 := by
    refine walkFrom_ends (P := fun f => ∀ p, f = some p → p.offset < 2 ^ 32 ∧ p.size < 2 ^ 32) ?_
      (fun p hp => by cases hp) hw
    intro l ctx hctx
    unfold findVisit
    split
    · exact hctx
    · rintro p ⟨⟩
      exact entryOf_lt l
  dsimp only at h
  split at h
  · cases (ends_pure.mp h).1
  · exact hP p (ends_pure.mp h).1

end P4Linux.Boot
