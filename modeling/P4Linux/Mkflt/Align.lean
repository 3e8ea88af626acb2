import P4Linux.Mkflt.PcRel

/-!
# Alignment at run time

`place` rounds offsets within the image. The kernel loads the whole file at a page, and the header stands between
the page and the image.

* `dvd_base` -- every base is a multiple of its alignment, also where the layout wraps;
* `aligned_iff` -- the **address** of a section is, if and only if the header is.
-/

namespace P4Linux.Mkflt

variable {w : Nat}

/-- Where a section that is placed at `b` is in memory, with the file at `T`. -/
def runTimeAddr (T : Nat) (b : BitVec w) : Int := T + flatHdrSize + b.toInt

def AlignedAt (T : Nat) (s : Section w) (b : BitVec w) : Prop := (s.align.toNat : Int) ∣ runTimeAddr T b

theorem mem_bases {len : BitVec w} {l : List (Section w)} {p : Section w × BitVec w} (h : p ∈ bases len l) :
    ∃ len', p.2 = alignUp len' p.1.align := by
  induction l generalizing len with
  | nil => cases h
  | cons s rest ih =>
    rcases List.mem_cons.mp h with rfl | h
    · exact ⟨len, rfl⟩
    · exact ih h

/-- A power of two that is not negative divides what it was multiplied by, the wrap included. -/
theorem dvd_toInt_mul (x : BitVec w) {a : BitVec w} {k : Nat} (ha : a.toNat = 2 ^ k) :
    (a.toNat : Int) ∣ (x * a).toInt := by
  have hk : 2 ^ k ∣ 2 ^ w := by
    refine Nat.pow_dvd_pow 2 ((Nat.pow_le_pow_iff_right Nat.one_lt_two).mp ?_)
    rw [← ha]
    exact Nat.le_of_lt a.isLt
  have hnat : a.toNat ∣ (x * a).toNat := by
    rw [BitVec.toNat_mul, ha]
    exact (Nat.dvd_mod_iff hk).mpr (Nat.dvd_mul_left _ _)
  have hw : (a.toNat : Int) ∣ ((2 ^ w : Nat) : Int) := by
    rw [ha]
    exact Int.natCast_dvd_natCast.mpr hk
  rw [BitVec.toInt_eq_toNat_cond]
  split
  · exact Int.natCast_dvd_natCast.mpr hnat
  · exact Int.dvd_sub (Int.natCast_dvd_natCast.mpr hnat) hw

theorem dvd_alignUp (len : BitVec w) {a : BitVec w} (hw : 32 ≤ w) {k : Nat} (ha : a.toNat = 2 ^ k)
    (hle : 2 ^ k ≤ 4096) : (a.toNat : Int) ∣ (alignUp len a).toInt := by
  have hbig : 2 ^ 31 ≤ 2 ^ (w - 1) := Nat.pow_le_pow_right (by omega) (by omega)
  have hai : a.toInt = a.toNat := toInt_of_lt hw (by omega)
  unfold alignUp
  rw [slt_one hw]
  by_cases h : 1 < a.toInt
  · rw [if_pos (decide_eq_true h)]
    exact dvd_toInt_mul _ ha
  · have hone : a.toNat = 1 := by
      have hpos : 0 < a.toNat := ha ▸ Nat.two_pow_pos k
      omega
    rw [hone]
    exact one_dvd _

section

variable {host : Host} {d : List UInt8} {obj : Obj w} {s : Section w} {b : BitVec w} {k : Nat}

theorem dvd_base (hw : 32 ≤ w) (hload : load host d = .ok obj) (hs : s ∈ obj.sec)
    (hb : obj.lay.base s.index = some b) (ha : s.align.toNat = 2 ^ k) (hle : 2 ^ k ≤ 4096) :
    (s.align.toNat : Int) ∣ b.toInt := by
  obtain ⟨-, e, -, -, hlay, -⟩ := load_ok hload
  rw [hlay, base_layout_iff (nodup_of_load hload) hs] at hb
  obtain ⟨len, hlen⟩ := mem_bases hb
  dsimp only at hlen
  rw [hlen]
  exact dvd_alignUp len hw ha hle

/-- **Alignment holds at run time** if and only if it divides the header; on every object that is read in, whether
it is then accepted or not. -/
theorem aligned_iff (hw : 32 ≤ w) (hload : load host d = .ok obj) (hs : s ∈ obj.sec) (hb : obj.lay.base s.index = some b)
    (ha : s.align.toNat = 2 ^ k) (hle : 2 ^ k ≤ 4096) {T : Nat} (hT : 4096 ∣ T) :
    AlignedAt T s b ↔ s.align.toNat ≤ 64 := by
  have hbase := dvd_base hw hload hs hb ha hle
  have hpage : (s.align.toNat : Int) ∣ T := by
    have hk : 2 ^ k ∣ 2 ^ 12 := Nat.pow_dvd_pow 2 ((Nat.pow_le_pow_iff_right Nat.one_lt_two).mp hle)
    rw [ha]
    exact Int.natCast_dvd_natCast.mpr (hk.trans hT)
  have hheader : AlignedAt T s b ↔ s.align.toNat ∣ 64 := by
    unfold AlignedAt runTimeAddr
    rw [Int.dvd_add_left hbase, Int.dvd_add_right hpage]
    exact Int.natCast_dvd_natCast
  rw [hheader, ha]
  constructor
  · exact Nat.le_of_dvd (by decide)
  · intro h64
    have h6 : 2 ^ k ≤ 2 ^ 6 := h64
    have hdvd : 2 ^ k ∣ 2 ^ 6 := Nat.pow_dvd_pow 2 ((Nat.pow_le_pow_iff_right Nat.one_lt_two).mp h6)
    exact hdvd

end

/-- `nop`, with a `.bss` that is to be aligned to `align`. -/
def alignedProgram (align : Nat) : List Elf.Sec :=
  Elf.program [0x13, 0, 0, 0] [] [Elf.sym 0 0]
    [{ name := [0x62], type := 8, flags := 3, data := [], size := 4, align := align }]

/-- A section of the object is placed, with this alignment and base. -/
def placedAt (obj : Obj w) (align base : BitVec w) : Bool :=
  obj.sec.any fun s => decide (s.align = align) && decide (obj.lay.base s.index = some base)

theorem placedAt_iff {obj : Obj w} {align base : BitVec w} : placedAt obj align base = true ↔
    ∃ s ∈ obj.sec, s.align = align ∧ obj.lay.base s.index = some base := by
  simp [placedAt]

/-- 64 is enough. -/
theorem aligned_iff_line : ∃ (obj : Obj 32) (out : List UInt8) (s : Section 32),
    mkflt 32 (.ofSections (alignedProgram 64)) 8192 (Elf.object (alignedProgram 64)) = .ok out ∧
    s ∈ obj.sec ∧ s.align = 64 ∧ AlignedAt 0x48001000 s 64 := by
  obtain ⟨obj, out, hout, hobj, hp⟩ := exists_linked (w := 32) (.ofSections (alignedProgram 64)) 8192
    (Elf.object (alignedProgram 64)) (p := fun _ obj => placedAt obj 64 64) (by decide +kernel)
  obtain ⟨s, hs, halign, hbase⟩ := placedAt_iff.mp hp
  have hnat : s.align.toNat = 2 ^ 6 := by rw [halign]; rfl
  have hle : s.align.toNat ≤ 64 := by
    rw [hnat]
    decide
  exact ⟨obj, out, s, hout, hs, halign,
    (aligned_iff (by decide) hobj hs hbase hnat (by decide) (by decide)).mpr hle⟩

/-- 128 is not: the section is 192 bytes after the page. -/
theorem not_aligned : ∃ (obj : Obj 32) (out : List UInt8) (s : Section 32),
    mkflt 32 (.ofSections (alignedProgram 128)) 8192 (Elf.object (alignedProgram 128)) = .ok out ∧
    load (.ofSections (alignedProgram 128)) (Elf.object (alignedProgram 128)) = .ok obj ∧
    s ∈ obj.sec ∧ s.align = 128 ∧ obj.lay.base s.index = some 128 ∧ ¬AlignedAt 0x48001000 s 128 := by
  obtain ⟨obj, out, hout, hobj, hp⟩ := exists_linked (w := 32) (.ofSections (alignedProgram 128)) 8192
    (Elf.object (alignedProgram 128)) (p := fun _ obj => placedAt obj 128 128) (by decide +kernel)
  obtain ⟨s, hs, halign, hbase⟩ := placedAt_iff.mp hp
  refine ⟨obj, out, s, hout, hobj, hs, halign, hbase, ?_⟩
  unfold AlignedAt
  rw [halign]
  decide

end P4Linux.Mkflt
