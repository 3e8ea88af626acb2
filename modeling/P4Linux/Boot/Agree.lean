import P4Linux.Boot.Flash
import P4Linux.Boot.Flashmap

/-!
# Board and host compute the same CRC

* `Rom.Stable` -- reads that lie in the chip succeed, and give what is on flash;
* `flashCrc32_stable`, `flashCopy_stable` -- the CRC pass and the copy see exactly the bytes asked for,
  whatever their number;
* `sameCrc_iff` -- the three CRCs of a partition agree unless `cmd_crc` reports none, or another
  partition's.
-/

namespace P4Linux.Boot

open Proc Flashmap

/-! ## 1. Stable flash -/

/-- What is on flash at `offset`. -/
def bytes (flash : Nat → UInt8) (offset len : Nat) : List UInt8 :=
  (List.range len).map fun i => flash (offset + i)

structure Rom.Stable {ρ : Type} (rom : Rom ρ) (flash : Nat → UInt8) : Prop where
  reads : ∀ chip offset len s, offset % 4 = 0 → len % 4 = 0 → offset + len ≤ chip →
    (rom.spiflashRead chip offset len s).1 = (true, bytes flash offset len)

@[simp] theorem length_bytes (flash : Nat → UInt8) (offset len : Nat) :
    (bytes flash offset len).length = len := by
  rw [bytes, List.length_map, List.length_range]

theorem getElem_bytes (flash : Nat → UInt8) {offset len i : Nat} (h : i < (bytes flash offset len).length) :
    (bytes flash offset len)[i] = flash (offset + i) := by
  unfold bytes at h ⊢
  rw [List.getElem_map, List.getElem_range]

theorem bytes_append (flash : Nat → UInt8) (offset m n : Nat) :
    bytes flash offset (m + n) = bytes flash offset m ++ bytes flash (offset + m) n := by
  unfold bytes
  rw [List.range_add, List.map_append, List.map_map]
  congr 1
  refine List.map_congr_left fun i _ => ?_
  rw [Function.comp_apply, Nat.add_assoc]

theorem take_bytes (flash : Nat → UInt8) (offset : Nat) {m n : Nat} (h : m ≤ n) :
    (bytes flash offset n).take m = bytes flash offset m := by
  obtain ⟨k, rfl⟩ := Nat.exists_eq_add_of_le h
  rw [bytes_append, List.take_left' (length_bytes _ _ _)]

section

variable {ρ : Type} {rom : Rom ρ} {flash : Nat → UInt8} (hst : rom.Stable flash)

include hst

theorem flashRead_stable {offset dest len : Nat} {b : Board ρ} (ho : offset % 4 = 0) (hl : len % 4 = 0)
    (hd : dest % 4 = 0) (hin : offset + len ≤ b.chipSize) :
    ∃ b', Ends (flashRead rom offset dest len) b (true, bytes flash offset len) b' := by
  have hr := hst.reads b.chipSize offset len b.rom ho hl hin
  unfold flashRead
  rw [if_neg (by omega)]
  exact ⟨_, ends_step.mpr (Prod.ext hr rfl)⟩

/-! ## 2. The CRC pass -/

/-- Induction on the rounds: the CRC so far is that of the first `done` bytes. -/
theorem crcLoop_stable (hcrc : ∀ c l, rom.crc32le c l = crc32 c l) {offset len : Nat}
    (ho : offset % 4 = 0) {n done : Nat} {b : Board ρ} (hchip : b.chipSize < 2 ^ 32)
    (hin : offset + (len + 3) / 4 * 4 ≤ b.chipSize) (hd : done ≤ len)
    (hal : done % 4 = 0 ∨ done = len) (hn : len - done + bufSize ≤ bufSize * n) :
    ∃ b', Ends (crcLoop rom offset len n done (crc32 0 (bytes flash offset done))) b
      (some (crc32 0 (bytes flash offset len))) b' := by
  induction n generalizing done b with
  | zero =>
    unfold bufSize at hn
    omega
  | succ n ih =>
    unfold crcLoop
    by_cases hlt : done < len
    · rw [if_pos hlt]
      have hpos := wantOf_pos hlt
      have hle := wantOf_le len done
      have hw : wantOf len done = bufSize ∨ wantOf len done = len - done := by
        unfold wantOf
        split
        · exact .inl rfl
        · exact .inr rfl
      have hu : u32 (offset + done) = offset + done := by
        unfold u32
        omega
      unfold bufSize at hn hw
      obtain ⟨rd, hrd⟩ : ∃ rd, (wantOf len done + 3) / 4 * 4 = rd := ⟨_, rfl⟩
      obtain ⟨t, hr⟩ : ∃ t, Ends (flashRead rom (offset + done) sram rd) b
          (true, bytes flash (offset + done) rd) t :=
        flashRead_stable hst (by omega) (by omega) rfl (by omega)
      have hchip' : t.chipSize = b.chipSize := congrArg Prod.snd ((leaves_flashRead _ _ _).ends hr)
      obtain ⟨b', hrest⟩ : ∃ b', Ends (crcLoop rom offset len n (done + wantOf len done)
          (crc32 0 (bytes flash offset (done + wantOf len done)))) t
          (some (crc32 0 (bytes flash offset len))) b' :=
        ih (by omega) (by omega) (by omega) (by omega) (by unfold bufSize; omega)
      refine ⟨b', ?_⟩
      dsimp only
      rw [hu, hrd]
      refine hr.bind ?_
      dsimp only
      rw [if_neg (by decide), take_bytes flash _ (by omega), hcrc, ← crc32_append, ← bytes_append]
      exact hrest
    · obtain rfl : done = len := by omega
      rw [if_neg hlt]
      exact ⟨b, ends_pure.mpr ⟨rfl, rfl⟩⟩

/-- **`p4_flash_crc32`** yields the CRC of exactly the bytes asked for, also of a number of bytes that
    is no multiple of 4, or of the buffer. -/
theorem flashCrc32_stable (hcrc : ∀ c l, rom.crc32le c l = crc32 c l) {offset len : Nat}
    (ho : offset % 4 = 0) {b : Board ρ} (hchip : b.chipSize < 2 ^ 32)
    (hin : offset + (len + 3) / 4 * 4 ≤ b.chipSize) :
    ∃ b', Ends (flashCrc32 rom offset len) b (some (crc32 0 (bytes flash offset len))) b' := by
  unfold flashCrc32
  rw [if_neg (by omega)]
  have h0 : crc32 0 (bytes flash offset 0) = 0 := crc32_nil 0
  have h : ∃ b', Ends (crcLoop rom offset len (len / bufSize + 2) 0 (crc32 0 (bytes flash offset 0))) b
      (some (crc32 0 (bytes flash offset len))) b' :=
    crcLoop_stable hst hcrc ho hchip hin (Nat.zero_le _) (.inl rfl) (by unfold bufSize; omega)
  rw [h0] at h
  exact h

/-! ## 3. The copy -/

omit hst in
theorem load_store (b : Board ρ) (addr : Nat) (data : List UInt8) :
    (b.store addr data).load addr data.length = data := by
  refine List.ext_getElem ?_ fun i h₁ h₂ => ?_
  · exact length_bytes _ _ _
  · refine (getElem_bytes _ h₁).trans ?_
    show (if addr ≤ addr + i ∧ addr + i < addr + data.length then data.getD (addr + i - addr) 0 else _) = _
    rw [if_pos ⟨by omega, by omega⟩, Nat.add_sub_cancel_left, List.getD_eq_getElem?_getD,
      List.getElem?_eq_getElem h₂, Option.getD_some]

omit hst in
/-- Storing behind what is there appends to it. -/
theorem load_store_append (b : Board ρ) (addr len : Nat) (data : List UInt8) :
    (b.store (addr + len) data).load addr (len + data.length) = b.load addr len ++ data := by
  have h : (b.store (addr + len) data).load addr len = b.load addr len := by
    refine List.map_congr_left fun i hi => mem_store b (.inl ?_)
    have := List.mem_range.mp hi
    omega
  refine (bytes_append _ addr len data.length).trans ?_
  exact congrArg₂ (· ++ ·) h (load_store b (addr + len) data)

/-- Induction on the rounds: `done` bytes of flash are at `dest`. -/
theorem copyLoop_stable {offset len dest : Nat} (ho : offset % 4 = 0) (hl : len % 4 = 0)
    (hdest : dest % 4 = 0) {n done : Nat} {b : Board ρ} (hchip : b.chipSize < 2 ^ 32)
    (hin : offset + len ≤ b.chipSize) (hd : done ≤ len) (hal : done % 4 = 0)
    (hn : len - done + bufSize ≤ bufSize * n) (hload : b.load dest done = bytes flash offset done) :
    ∃ b', Ends (copyLoop rom offset len dest n done) b true b' ∧
      b'.load dest len = bytes flash offset len := by
  induction n generalizing done b with
  | zero =>
    unfold bufSize at hn
    omega
  | succ n ih =>
    unfold copyLoop
    by_cases hlt : done < len
    · rw [if_pos hlt]
      have hpos := wantOf_pos hlt
      have hle := wantOf_le len done
      have hw : wantOf len done = bufSize ∨ wantOf len done = len - done := by
        unfold wantOf
        split
        · exact .inl rfl
        · exact .inr rfl
      have hu : u32 (offset + done) = offset + done := by
        unfold u32
        omega
      unfold bufSize at hn hw
      obtain ⟨want, hwant⟩ : ∃ want, wantOf len done = want := ⟨_, rfl⟩
      rw [hwant] at hpos hle hw
      obtain ⟨t, hr⟩ : ∃ t, Ends (flashRead rom (offset + done) (dest + done) want) b
          (true, bytes flash (offset + done) want) t :=
        flashRead_stable hst (by omega) (by omega) (by omega) (by omega)
      obtain ⟨hmem, hchip'⟩ := Prod.mk.inj ((leaves_flashRead _ _ _).ends hr)
      have hstored : (t.store (dest + done) (bytes flash (offset + done) want)).load dest (done + want) =
          bytes flash offset (done + want) := by
        have happ := load_store_append t dest done (bytes flash (offset + done) want)
        have hkept : t.load dest done = b.load dest done := by
          unfold Board.load
          rw [hmem]
        rw [length_bytes, hkept, hload] at happ
        rw [happ, bytes_append]
      obtain ⟨t', ht'⟩ : ∃ t', t' = t.store (dest + done) (bytes flash (offset + done) want) := ⟨_, rfl⟩
      rw [← ht'] at hstored
      have hchip'' : t'.chipSize = b.chipSize := by
        rw [ht']
        exact hchip'
      obtain ⟨b', hrest, hb'⟩ := ih (by omega) (by omega) (by omega) (by omega) (by unfold bufSize; omega)
        hstored
      refine ⟨b', ?_, hb'⟩
      dsimp only
      rw [hu, hwant]
      refine hr.bind ?_
      dsimp only
      rw [take_bytes flash _ (Nat.le_refl _)]
      refine Ends.bind (ends_step.mpr rfl) ?_
      rw [if_neg (by decide), ← ht']
      exact hrest
    · obtain rfl : done = len := by omega
      rw [if_neg hlt]
      exact ⟨b, ends_pure.mpr ⟨rfl, rfl⟩, hload⟩

/-- **`p4_flash_copy`** puts at `dest` what is on flash. -/
theorem flashCopy_stable {offset len dest : Nat} (ho : offset % 4 = 0) (hl : len % 4 = 0)
    (hdest : dest % 4 = 0) {b : Board ρ} (hchip : b.chipSize < 2 ^ 32) (hin : offset + len ≤ b.chipSize) :
    ∃ b', Ends (flashCopy rom offset len dest) b true b' ∧ b'.load dest len = bytes flash offset len := by
  unfold flashCopy
  rw [if_neg (by omega)]
  exact copyLoop_stable hst ho hl hdest hchip hin (Nat.zero_le _) rfl (by unfold bufSize; omega) rfl

/-! ## 4. Three CRCs of one partition -/

/-- Flash holds the payload, and 0xFF up to the end of the partition. -/
def Flashed (flash : Nat → UInt8) (p : Part) (payload : List UInt8) : Prop :=
  ∀ i < p.size.toNat, flash (p.off.toNat + i) = payload.getD i 0xFF

omit hst in
theorem bytes_of_flashed {p : Part} {payload : List UInt8} (h : Flashed flash p payload)
    (hlen : payload.length ≤ p.size) : bytes flash p.off.toNat p.size.toNat =
      payload ++ List.replicate (p.size - payload.length).toNat 0xFF := by
  refine List.ext_getElem ?_ fun i h₁ h₂ => ?_
  · rw [length_bytes, List.length_append, List.length_replicate]
    omega
  · rw [getElem_bytes, h i (by rwa [length_bytes] at h₁), List.getD_eq_getElem?_getD, List.getElem_append]
    split
    · rename_i hi
      rw [List.getElem?_eq_getElem hi, Option.getD_some]
    · rename_i hi
      rw [List.getElem?_eq_none (Nat.le_of_not_lt hi), Option.getD_none, List.getElem_replicate]

/-- `cmd_crc` reports on the partition; `p4_flash_crc32` and, after `p4_flash_copy`, `p4_mem_crc32`
    yield the CRC it reports. -/
def SameCrc (rom : Rom ρ) (parts : List Part) (p : Part) (payload : List UInt8) (dest : Nat)
    (b : Board ρ) : Prop :=
  ∃ report, cmdCrc parts p.name payload = .ok report ∧ report.off = p.off ∧ report.size = p.size ∧
    (∃ b', Ends (flashCrc32 rom p.off.toNat p.size.toNat) b (some report.crc) b') ∧
    ∃ b₁ b₂, Ends (flashCopy rom p.off.toNat p.size.toNat dest) b true b₁ ∧
      Ends (memCrc32 rom dest p.size.toNat) b₁ report.crc b₂

omit hst in
/-- No other partition's report, and none that ends in the division. -/
theorem sameCrc_imp {parts : List Part} {p : Part} {payload : List UInt8} {dest : Nat} {b : Board ρ}
    (h : SameCrc rom parts p payload dest b) :
    p.size ≠ 0 ∧ ∀ q, LastNamed parts p.name q → q.off = p.off ∧ q.size = p.size := by
  obtain ⟨report, hr, hoff, hsize, -⟩ := h
  obtain ⟨q, hq, -, hne, rfl⟩ := cmdCrc_ok.mp hr
  refine ⟨fun h0 => hne (hsize.trans h0), fun q' hq' => ?_⟩
  obtain rfl : q = q' := Option.some.inj (hq.symm.trans (lookup_eq_some hq'))
  exact ⟨hoff, hsize⟩

theorem sameCrc_of (hcrc : ∀ c l, rom.crc32le c l = crc32 c l) {parts : List Part} {p : Part}
    {payload : List UInt8} {dest : Nat} {b : Board ρ} (hcheck : check parts = .ok ()) (hp : p ∈ parts)
    (hchip : b.chipSize < 2 ^ 32) (hin : p.off + p.size ≤ b.chipSize) (hlen : payload.length ≤ p.size)
    (hf : Flashed flash p payload) (hdest : dest % 4 = 0) (hsize : p.size ≠ 0)
    (hlast : ∀ q, LastNamed parts p.name q → q.off = p.off ∧ q.size = p.size) :
    SameCrc rom parts p payload dest b := by
  obtain ⟨hoff, hoff', hsize'⟩ := checkPart_ok.mp ((check_ok.mp hcheck).1 p hp)
  obtain ⟨q, hq⟩ := exists_lastNamed ⟨p, hp, rfl⟩
  obtain ⟨hqo, hqs⟩ := hlast q hq
  have hbytes := bytes_of_flashed hf hlen
  obtain ⟨t, ht⟩ : ∃ t, Ends (flashCrc32 rom p.off.toNat p.size.toNat) b
      (some (crc32 0 (bytes flash p.off.toNat p.size.toNat))) t :=
    flashCrc32_stable hst hcrc (by omega) hchip (by omega)
  obtain ⟨b₁, hcopy, hload⟩ : ∃ b₁, Ends (flashCopy rom p.off.toNat p.size.toNat dest) b true b₁ ∧
      b₁.load dest p.size.toNat = bytes flash p.off.toNat p.size.toNat :=
    flashCopy_stable hst (by omega) (by omega) hdest hchip (by omega)
  have hmem : Ends (memCrc32 rom dest p.size.toNat) b₁
      (crc32 0 (bytes flash p.off.toNat p.size.toNat)) b₁ := by
    refine ends_step.mpr ?_
    rw [hload, hcrc]
  rw [hbytes] at ht hmem
  refine ⟨_, cmdCrc_ok.mpr ⟨q, lookup_eq_some hq, by omega, by omega, rfl⟩, hqo, hqs, ⟨t, ?_⟩, b₁, b₁,
    hcopy, ?_⟩
  · rw [hqs]
    exact ht
  · rw [hqs]
    exact hmem

end

/-- **Board and host**: the CRC pass is exact for every length, and the three CRCs of a partition are
    the same unless the partition is empty or a later one takes its name. -/
theorem sameCrc_iff {ρ : Type} {rom : Rom ρ} {flash : Nat → UInt8} (hst : rom.Stable flash)
    (hcrc : ∀ c l, rom.crc32le c l = crc32 c l) :
    (∀ offset len (b : Board ρ), offset % 4 = 0 → b.chipSize = flashSize →
      offset + (len + 3) / 4 * 4 ≤ b.chipSize →
      ∃ b', Ends (flashCrc32 rom offset len) b (some (crc32 0 (bytes flash offset len))) b') ∧
    ∀ parts p payload dest (b : Board ρ), check parts = .ok () → p ∈ parts → b.chipSize = flashSize →
      p.off + p.size ≤ b.chipSize → payload.length ≤ p.size → Flashed flash p payload → dest % 4 = 0 →
      (SameCrc rom parts p payload dest b ↔
        p.size ≠ 0 ∧ ∀ q, LastNamed parts p.name q → q.off = p.off ∧ q.size = p.size) := by
  have hsmall : ∀ b : Board ρ, b.chipSize = flashSize → b.chipSize < 2 ^ 32 := by
    intro b hchip
    rw [hchip]
    decide
  constructor
  · intro offset len b ho hchip hin
    exact flashCrc32_stable hst hcrc ho (hsmall b hchip) hin
  · intro parts p payload dest b hcheck hp hchip hin hlen hf hdest
    constructor
    · exact sameCrc_imp
    · rintro ⟨hsize, hlast⟩
      exact sameCrc_of hst hcrc hcheck hp (hsmall b hchip) hin hlen hf hdest hsize hlast

/-! ## 5. A ROM -/

/-- A ROM that reads `flash`. -/
def flashRom (flash : Nat → UInt8) : Rom Unit where
  spiflashRead chip offset len s :=
    ((decide (offset + len ≤ chip), if offset + len ≤ chip then bytes flash offset len else []), s)
  enterLowSpeed s := s
  crc32le := crc32

theorem flashRom_stable (flash : Nat → UInt8) : (flashRom flash).Stable flash where
  reads chip offset len s _ _ hin := by
    show (decide _, if _ then _ else _) = _
    rw [decide_eq_true hin, if_pos hin]

/-- A board as `p4_flash_init` leaves it. -/
def freshBoard : Board Unit := ⟨(), flashSize, fun _ => 0⟩

/-- A kernel partition with seven bytes in it. -/
theorem sameCrc_seven_bytes : SameCrc (flashRom fun a => [1, 2, 3, 4, 5, 6, 7].getD (a - 0x20000) 0xFF)
    [⟨[107], 0x40, 0, 0x20000, 0x1000⟩] ⟨[107], 0x40, 0, 0x20000, 0x1000⟩ [1, 2, 3, 4, 5, 6, 7] 0x48000000
    freshBoard := by
  have h := (sameCrc_iff (flashRom_stable fun a => [1, 2, 3, 4, 5, 6, 7].getD (a - 0x20000) 0xFF)
    fun _ _ => rfl).2
  refine (h [⟨[107], 0x40, 0, 0x20000, 0x1000⟩] ⟨[107], 0x40, 0, 0x20000, 0x1000⟩ [1, 2, 3, 4, 5, 6, 7]
    0x48000000 freshBoard rfl List.mem_cons_self rfl (by decide) (by decide) ?_ rfl).mpr ⟨by decide, ?_⟩
  · intro i _
    show List.getD _ (0x20000 + i - 0x20000) 0xFF = _
    rw [Nat.add_sub_cancel_left]
  · rintro q ⟨before, after, he, -⟩
    have hq : q ∈ [(⟨[107], 0x40, 0, 0x20000, 0x1000⟩ : Part)] := by
      rw [he]
      exact List.mem_append_right _ List.mem_cons_self
    rw [List.mem_singleton.mp hq]
    exact ⟨rfl, rfl⟩

/-- An empty partition passes `check`, and `cmd_crc` divides by its size. -/
theorem not_sameCrc_empty : check [⟨[107], 0x40, 0, 0x20000, 0⟩] = .ok () ∧
    Flashed (fun _ => 0xFF) ⟨[107], 0x40, 0, 0x20000, 0⟩ [] ∧
    cmdCrc [⟨[107], 0x40, 0, 0x20000, 0⟩] [107] [] = .error .zeroDivision ∧
    ¬ SameCrc (flashRom fun _ => 0xFF) [⟨[107], 0x40, 0, 0x20000, 0⟩] ⟨[107], 0x40, 0, 0x20000, 0⟩ []
      0x48000000 freshBoard := by
  refine ⟨rfl, fun _ _ => rfl, rfl, ?_⟩
  rintro ⟨report, hr, -⟩
  cases hr

end P4Linux.Boot
