import P4Linux.Lib.Agree
import P4Linux.Mkflt.Run

/-!
# One script, two integer widths: reading and laying out

The board's Lua has 32-bit integers, a host's 64. Both runs of the script are followed here side by
side, from the first byte to the image before relocation: what the 32-bit run holds is the low word of
what the 64-bit run holds. Each step that could part the two has its condition, in terms of the 64-bit
run, where nothing wraps, and the condition is asked only where that run comes to the step.

* `Settled` -- a file position from `2 ^ 31` on is past the end at 64 bits, and at 32 counts from the
  END: a read agrees where nothing is found there either (`u16_agree`, `u32_agree`);
* `HeadersSettled`, `readSections_agree` -- the section headers;
* `narrowFrom`, `layout_low` -- the layout, in exact arithmetic below the sign bit;
* `NamesHeld`, `blitAll_agree` -- the image, where objcopy is asked for the same sections.
-/

namespace P4Linux.Mkflt

open Lua

/-! ## 1. Bytes and words of the file -/

/-- The same unsigned word of at most `n` bits, at both widths. -/
def Word (n : Nat) (x : BitVec 32) (y : BitVec 64) : Prop := x = low y ∧ y.toNat < 2 ^ n

/-- A word of the file is never negative at 64 bits: no position there is counted from the end. -/
theorem toInt_wide {x : BitVec 64} (h : x.toNat < 2 ^ 63) : x.toInt = x.toNat :=
  BitVec.toInt_eq_toNat_of_lt (by omega)

/-- A literal of the script is the same literal at both widths. -/
theorem low_eq_ofNat {x : BitVec 64} (hx : x.toNat < 2 ^ 32) {n : Nat} (hn : n < 2 ^ 32) :
    low x = BitVec.ofNat 32 n ↔ x = BitVec.ofNat 64 n := by
  rw [← low_ofNat (w := 64) (by omega), low_inj hx]
  rw [BitVec.toNat_ofNat, Nat.mod_eq_of_lt (by omega)]
  exact hn

/-- Lua counts bytes from 1. -/
theorem low_succ (o : BitVec 64) : low o + 1 = low (o + 1) := (low_add (by omega) o 1).symm

theorem toNat_succ {x : BitVec 64} (h : x.toNat < 2 ^ 63) : (x + 1).toNat = x.toNat + 1 :=
  BitVec.toNat_add_of_lt (by simp; omega)

/-- A field `n` bytes into a record: no position is near `2 ^ 64`. -/
theorem toNat_field {o : BitVec 64} {n : Nat} (h : o.toNat + n < 2 ^ 64) :
    (o + BitVec.ofNat 64 n).toNat = o.toNat + n := by
  rw [BitVec.toNat_add, BitVec.toNat_ofNat, Nat.mod_eq_of_lt (by omega : n < 2 ^ 64), Nat.mod_eq_of_lt (by omega)]

/-- The position is computed alike, wrapped or not. -/
theorem low_field_at (o : BitVec 64) (n : Nat) : low o + BitVec.ofNat 32 n = low (o + BitVec.ofNat 64 n) := by
  rw [low_add (by omega), low_ofNat (by omega)]

/-- **The position `o` is settled**: the narrow run finds the byte behind it where the wide one does, or
    finds none. -/
def Settled (d : List UInt8) (o : BitVec 64) : Prop := o.toNat + 1 < 2 ^ 31 ∨ byteAt d (low (o + 1)) = none

instance (d : List UInt8) (o : BitVec 64) : Decidable (Settled d o) := inferInstanceAs (Decidable (_ ∨ _))

section File

variable {d : List UInt8} {o : BitVec 64}

/-- **A position below the sign bit** finds the same byte. -/
theorem byteAt_low {i : BitVec 64} (h0 : 0 < i.toNat) (h : i.toNat < 2 ^ 31) :
    byteAt d (low i) = byteAt d i := by
  rw [byteAt_of_pos d (by rw [toInt_low h]; omega), byteAt_of_pos d (by rw [toInt_wide (by omega)]; omega),
    toNat_low_of_lt (by omega)]

/-- The wide run has the byte at the position itself. -/
theorem byteAt_eq (ho : o.toNat < 2 ^ 62) : byteAt d (o + 1) = d[o.toNat]? := by
  have e := toNat_succ (x := o) (by omega)
  rw [byteAt_of_pos d (by rw [toInt_wide (by omega)]; omega), e, Nat.add_sub_cancel]

/-- Both runs find the same byte, or both find none. -/
theorem byteAt_settled (hd : d.length < 2 ^ 31) (ho : o.toNat < 2 ^ 62) (h : Settled d o) :
    byteAt d (low (o + 1)) = byteAt d (o + 1) := by
  have e := toNat_succ (x := o) (by omega)
  by_cases hlow : o.toNat + 1 < 2 ^ 31
  · exact byteAt_low (by omega) (by omega)
  · -- the wide run is past the end of the file
    rw [h.resolve_left hlow, byteAt_eq ho, List.getElem?_eq_none (by omega)]

/-- No byte of the file, and not the place right behind it, needs more than 31 bits. -/
theorem settled_of_le (hd : d.length < 2 ^ 31) (h : o.toNat ≤ d.length) : Settled d o := by
  by_cases hlow : o.toNat + 1 < 2 ^ 31
  · exact .inl hlow
  · -- position `2 ^ 31` of a file of `2 ^ 31 - 1` bytes: `-2 ^ 31`, one further than its first byte
    have e : (low (o + 1)).toNat = 2 ^ 31 := by
      rw [toNat_low_of_lt (by rw [toNat_succ (by omega)]; omega), toNat_succ (by omega)]
      omega
    have hneg : (low (o + 1)).toInt = -2 ^ 31 := by
      rw [BitVec.toInt_eq_toNat_cond, e]
      decide
    right
    unfold byteAt
    rw [hneg, if_neg (by decide), if_neg (by omega)]

/-- Arithmetic on a byte that is not there stops either run. -/
theorem operand_agree (b : Option UInt8) :
    Agree (fun x y => x = low y) (operand b : Except Err (BitVec 32))
      (operand b : Except Err (BitVec 64)) := by
  cases b with
  | none => exact .error _ _
  | some b => exact .ok (BitVec.setWidth_setWidth_of_le _ (by omega)).symm

theorem u8_agree (hd : d.length < 2 ^ 31) (ho : o.toNat < 2 ^ 62) (h : Settled d o) :
    Agree (fun x y => x = low y) (operand (u8 d (low o)) : Except Err (BitVec 32))
      (operand (u8 d o) : Except Err (BitVec 64)) := by
  unfold u8
  rw [low_succ, byteAt_settled hd ho h]
  exact operand_agree _

/-- A byte that was read is a byte of the file. -/
theorem u8_inside (ho : o.toNat < 2 ^ 62) {y : BitVec 64} (h : operand (u8 d o) = .ok y) : o.toNat < d.length := by
  unfold u8 at h
  rw [byteAt_eq ho] at h
  by_contra hlt
  rw [List.getElem?_eq_none (by omega)] at h
  cases h

/-- The byte `n` places on, behind one that was read. -/
theorem u8_next (hd : d.length < 2 ^ 31) {n : Nat} (h : o.toNat + n ≤ d.length) :
    Agree (fun x y => x = low y)
      (operand (u8 d (low o + BitVec.ofNat 32 n)) : Except Err (BitVec 32))
      (operand (u8 d (o + BitVec.ofNat 64 n)) : Except Err (BitVec 64)) := by
  have e : (o + BitVec.ofNat 64 n).toNat = o.toNat + n := toNat_field (by omega)
  rw [low_field_at]
  exact u8_agree hd (by omega) (settled_of_le hd (by omega))

/-- And then there are that many bytes. -/
theorem u8_next_inside {n : Nat} (ho : o.toNat + n < 2 ^ 62) {y : BitVec 64}
    (h : operand (u8 d (o + BitVec.ofNat 64 n)) = .ok y) : o.toNat + n < d.length := by
  have e : (o + BitVec.ofNat 64 n).toNat = o.toNat + n := toNat_field (by omega)
  rw [← e]
  exact u8_inside (by omega) h

/-- **A half-word whose first byte is settled** is the same half-word: its second byte is settled too. -/
theorem u16_agree (hd : d.length < 2 ^ 31) (ho : o.toNat < 2 ^ 61) (h : Settled d o) :
    Agree (Word 16) (u16 d (low o)) (u16 d o) := by
  suffices hlow : Agree (fun x y => x = low y) (u16 d (low o)) (u16 d o) from
    hlow.and_ok.mono fun x y h => ⟨h.1, u16_lt h.2⟩
  refine (u8_agree hd (by omega) h).bind fun x0 y0 _ hy e0 => ?_
  have h0 := u8_inside (by omega) hy
  refine (u8_next hd (n := 1) (by omega)).bind fun x1 y1 _ _ e1 => agree_pure ?_
  rw [low_or, low_shl (by omega), e0, e1]

/-- **A word whose first byte is settled** is the same word. -/
theorem u32_agree (hd : d.length < 2 ^ 31) (ho : o.toNat < 2 ^ 61) (h : Settled d o) :
    Agree (Word 32) (u32 d (low o)) (u32 d o) := by
  suffices hlow : Agree (fun x y => x = low y) (u32 d (low o)) (u32 d o) from
    hlow.and_ok.mono fun x y h => ⟨h.1, u32_lt (by omega) h.2⟩
  refine (u8_agree hd (by omega) h).bind fun x0 y0 _ hy0 e0 => ?_
  have h0 := u8_inside (by omega) hy0
  refine (u8_next hd (n := 1) (by omega)).bind fun x1 y1 _ hy1 e1 => ?_
  have h1 := u8_next_inside (n := 1) (by omega) hy1
  refine (u8_next hd (n := 2) (by omega)).bind fun x2 y2 _ hy2 e2 => ?_
  have h2 := u8_next_inside (n := 2) (by omega) hy2
  refine (u8_next hd (n := 3) (by omega)).bind fun x3 y3 _ _ e3 => agree_pure ?_
  rw [join, join, low_or, low_or, low_or, low_shl (by omega), low_shl (by omega), low_shl (by omega),
    e0, e1, e2, e3]

/-- A word that was read ends inside the file. -/
theorem u32_inside (ho : o.toNat < 2 ^ 61) {y : BitVec 64} (h : u32 d o = .ok y) : o.toNat + 4 ≤ d.length := by
  obtain ⟨_, -, h⟩ := bind_ok.mp h
  obtain ⟨_, -, h⟩ := bind_ok.mp h
  obtain ⟨_, -, h⟩ := bind_ok.mp h
  obtain ⟨_, h3, -⟩ := bind_ok.mp h
  exact u8_next_inside (n := 3) (by omega) h3

/-- The same of a half-word. -/
theorem u16_inside (ho : o.toNat < 2 ^ 61) {y : BitVec 64} (h : u16 d o = .ok y) : o.toNat + 2 ≤ d.length := by
  obtain ⟨_, -, h⟩ := bind_ok.mp h
  obtain ⟨_, h1, -⟩ := bind_ok.mp h
  exact u8_next_inside (n := 1) (by omega) h1

/-- A half-word field of the record at `o`. -/
theorem u16_field (hd : d.length < 2 ^ 31) {k : Nat} (ho : o.toNat + k < 2 ^ 61)
    (h : Settled d (o + BitVec.ofNat 64 k)) :
    Agree (Word 16) (u16 d (low o + BitVec.ofNat 32 k)) (u16 d (o + BitVec.ofNat 64 k)) := by
  rw [low_field_at]
  exact u16_agree hd (by rw [toNat_field (by omega)]; exact ho) h

/-- A field of the record at `o`. -/
theorem u32_field (hd : d.length < 2 ^ 31) {k : Nat} (ho : o.toNat + k < 2 ^ 61)
    (h : Settled d (o + BitVec.ofNat 64 k)) :
    Agree (Word 32) (u32 d (low o + BitVec.ofNat 32 k)) (u32 d (o + BitVec.ofNat 64 k)) := by
  rw [low_field_at]
  exact u32_agree hd (by rw [toNat_field (by omega)]; exact ho) h

/-- The explicit sign extension does nothing at 32 bits and agrees with it at 64. -/
theorem s32_agree (hd : d.length < 2 ^ 31) (ho : o.toNat < 2 ^ 61) (h : Settled d o) :
    Agree (fun x y => x = low y) (s32 d (low o)) (s32 d o) := by
  refine (u32_agree hd ho h).bind fun x y _ _ e => agree_pure ?_
  have hz : BitVec.ofNat 32 0x100000000 = 0#32 := by decide
  have hx : (if (BitVec.ofNat 32 0x80000000).sle x then x - BitVec.ofNat 32 0x100000000 else x) = x := by
    rw [hz, BitVec.sub_zero, ite_self]
  rw [hx, e.1]
  split
  · rw [low_sub (by omega), low_ofNat (by omega), hz, BitVec.sub_zero]
  · rfl

end File

/-! ## 2. The header and the sections -/

/-- The four fields of the ELF header that the script keeps. -/
structure HeaderLow (e : Header 32) (e' : Header 64) : Prop where
  shoff : Word 32 e.shoff e'.shoff
  shentsize : Word 16 e.shentsize e'.shentsize
  shnum : Word 16 e.shnum e'.shnum
  shstrndx : Word 16 e.shstrndx e'.shstrndx

/-- A check of the same fact; the two texts may differ, since they print the width's own numbers. -/
theorem dieIf_agree {p q : Prop} [Decidable p] [Decidable q] (hpq : p ↔ q) {s t : String} :
    Agree (fun _ _ => True) (dieIf p s) (dieIf q t) :=
  agree_ite hpq (fun _ _ => .error _ _) fun _ _ => .ok trivial

/-- The ELF header lies in the first 52 bytes: nothing in it can part the two runs. -/
theorem readHeader_agree {host : Host} {d : List UInt8} (hd : d.length < 2 ^ 31) :
    Agree HeaderLow (readHeader host d) (readHeader host d) := by
  have hsettled : ∀ n < 52, Settled d (BitVec.ofNat 64 n) := fun n hn => .inl (by
    rw [BitVec.toNat_ofNat, Nat.mod_eq_of_lt (by omega)]
    omega)
  have c4 : u8 d (4 : BitVec 32) = u8 d (4 : BitVec 64) := byteAt_low (i := 5) (by decide) (by decide)
  have c5 : u8 d (5 : BitVec 32) = u8 d (5 : BitVec 64) := byteAt_low (i := 6) (by decide) (by decide)
  refine (dieIf_agree Iff.rfl).bind fun _ _ _ _ _ => (dieIf_agree (by rw [c4])).bind fun _ _ _ _ _ =>
    (dieIf_agree (by rw [c5])).bind fun _ _ _ _ _ => ?_
  refine (u16_agree (o := 16) hd (by decide) (hsettled 16 (by decide))).bind fun t t' _ _ et => ?_
  refine (dieIf_agree (not_congr ?_)).bind fun _ _ _ _ _ => ?_
  · rw [et.1]
    exact low_eq_ofNat (et.2.trans (by decide)) (by decide)
  refine (u16_agree (o := 18) hd (by decide) (hsettled 18 (by decide))).bind fun m m' _ _ em => ?_
  refine (dieIf_agree (not_congr ?_)).bind fun _ _ _ _ _ => ?_
  · rw [em.1]
    exact low_eq_ofNat (em.2.trans (by decide)) (by decide)
  refine (u32_agree (o := 32) hd (by decide) (hsettled 32 (by decide))).bind fun x0 y0 _ _ e0 => ?_
  refine (u16_agree (o := 46) hd (by decide) (hsettled 46 (by decide))).bind fun x1 y1 _ _ e1 => ?_
  refine (u16_agree (o := 48) hd (by decide) (hsettled 48 (by decide))).bind fun x2 y2 _ _ e2 => ?_
  refine (u16_agree (o := 50) hd (by decide) (hsettled 50 (by decide))).bind fun x3 y3 _ _ e3 => ?_
  refine (dieIf_agree (or_congr ?_ ?_)).bind fun _ _ _ _ _ => agree_pure ⟨e0, e1, e2, e3⟩
  · rw [e0.1]
    exact low_eq_ofNat e0.2 (by decide)
  · rw [e2.1]
    exact low_eq_ofNat (e2.2.trans (by decide)) (by decide)

/-- The fields of a section at both widths; a wide field is an unsigned word. The name is not among
    them: it is read from a sum of two offsets, which can wrap. -/
structure SectionLow (s : Section 32) (t : Section 64) : Prop where
  index : s.index = t.index
  type : Word 32 s.type t.type
  flags : Word 32 s.flags t.flags
  offset : Word 32 s.offset t.offset
  size : Word 32 s.size t.size
  link : Word 32 s.link t.link
  info : Word 32 s.info t.info
  align : Word 32 s.align t.align

/-- Where the header of section `n` starts. -/
def Header.at (e : Header 64) (n : BitVec 64) : BitVec 64 := e.shoff + n * e.shentsize

/-- The fields of a section header, in the order in which they are read. -/
def headerFields : List Nat := [0, 4, 8, 16, 20, 24, 28, 32, 36]

/-- **Each field of header `n` the wide run comes to** is settled. -/
def HeaderSettled (d : List UInt8) (e : Header 64) (n : Nat) : Prop :=
  EachOf (fun k => u32 d (e.at (BitVec.ofNat 64 n) + BitVec.ofNat 64 k))
    (fun k => Settled d (e.at (BitVec.ofNat 64 n) + BitVec.ofNat 64 k)) headerFields

/-- The header of `.shstrtab`, and then each section header the wide run comes to. -/
structure HeadersSettled (d : List UInt8) (e : Header 64) : Prop where
  strings : Settled d (e.at e.shstrndx + 16)
  headers : Returns (u32 d (e.at e.shstrndx + 16)) fun shstr =>
    EachOf (readSection d e shstr) (HeaderSettled d e) (List.range e.shnum.toNat)

instance (d : List UInt8) (e : Header 64) (n : Nat) : Decidable (HeaderSettled d e n) :=
  inferInstanceAs (Decidable (EachOf _ _ _))

instance (d : List UInt8) (e : Header 64) : Decidable (HeadersSettled d e) :=
  decidable_of_iff (_ ∧ _) ⟨fun h => ⟨h.1, h.2⟩, fun h => ⟨h.strings, h.headers⟩⟩

/-- The name of section `n` as it is read where the two offsets are added at 32 bits. -/
def narrowName (d : List UInt8) (e : Header 64) (n : Nat) : List UInt8 :=
  match u32 d (e.at e.shstrndx + 16), u32 d (e.at (BitVec.ofNat 64 n)) with
  | .ok shstr, .ok off => shname d (low shstr) (low off)
  | _, _ => []

/-- A 32-bit offset and at most 2 ^ 16 headers of less than 2 ^ 16 bytes: nothing wraps at 64 bits. -/
theorem toNat_at {e : Header 64} (hoff : e.shoff.toNat < 2 ^ 32) (hent : e.shentsize.toNat < 2 ^ 16)
    {n : BitVec 64} (hn : n.toNat < 2 ^ 16) : (e.at n).toNat < 2 ^ 33 := by
  have hm : n.toNat * e.shentsize.toNat < 2 ^ 32 := by
    calc n.toNat * e.shentsize.toNat < 2 ^ 16 * 2 ^ 16 := Nat.mul_lt_mul'' hn hent
      _ = 2 ^ 32 := by norm_num
  unfold Header.at
  rw [BitVec.toNat_add, BitVec.toNat_mul, Nat.mod_eq_of_lt (by omega : n.toNat * e.shentsize.toNat < 2 ^ 64),
    Nat.mod_eq_of_lt (by omega)]
  omega

section Headers

variable {d : List UInt8} {e : Header 32} {e' : Header 64}

/-- At 32 bits the position of a header may wrap, to the low word of where it is. -/
theorem HeaderLow.at (he : HeaderLow e e') (n : BitVec 64) : e.shoff + low n * e.shentsize = low (e'.at n) := by
  unfold Header.at
  rw [low_add (by omega), low_mul (by omega), he.shoff.1, he.shentsize.1]

/-- **One section header reads the same**, if each field it comes to is settled. -/
theorem readSection_agree (hd : d.length < 2 ^ 31) (he : HeaderLow e e') {shstr : BitVec 64}
    (hs : u32 d (e'.at e'.shstrndx + 16) = .ok shstr) {n : Nat} (hn : n < 2 ^ 16) (h : HeaderSettled d e' n) :
    Agree (fun s t => SectionLow s t ∧ s.name = narrowName d e' t.index) (readSection d e (low shstr) n)
      (readSection d e' shstr n) := by
  have hnat : (BitVec.ofNat 64 n).toNat = n := by rw [BitVec.toNat_ofNat, Nat.mod_eq_of_lt (by omega)]
  have ho := toNat_at he.shoff.2 he.shentsize.2 (n := BitVec.ofNat 64 n) (by omega)
  have hat := he.at (BitVec.ofNat 64 n)
  rw [low_ofNat (by omega)] at hat
  have hname : ∀ off, u32 d (e'.at (BitVec.ofNat 64 n)) = .ok off →
      narrowName d e' n = shname d (low shstr) (low off) := fun off hoff => by
    unfold narrowName
    rw [hs, hoff]
  have hat' : e'.shoff + BitVec.ofNat 64 n * e'.shentsize = e'.at (BitVec.ofNat 64 n) := rfl
  have hfirst : e'.at (BitVec.ofNat 64 n) + BitVec.ofNat 64 0 = e'.at (BitVec.ofNat 64 n) := BitVec.add_zero _
  unfold readSection
  rw [hat, hat']
  -- field by field: each is asked to be settled only after the one before it was read
  obtain ⟨h0, h⟩ := h
  dsimp only at h
  rw [hfirst] at h0 h
  generalize e'.at (BitVec.ofNat 64 n) = o at ho hname h0 h ⊢
  refine (u32_agree hd (by omega) h0).bind fun name name' _ r0 e0 => ?_
  obtain ⟨h1, h⟩ := h _ r0
  refine (u32_field hd (k := 4) (by omega) h1).bind fun _ _ _ r1 e1 => ?_
  obtain ⟨h2, h⟩ := h _ r1
  refine (u32_field hd (k := 8) (by omega) h2).bind fun _ _ _ r2 e2 => ?_
  obtain ⟨h3, h⟩ := h _ r2
  refine (u32_field hd (k := 16) (by omega) h3).bind fun _ _ _ r3 e3 => ?_
  obtain ⟨h4, h⟩ := h _ r3
  refine (u32_field hd (k := 20) (by omega) h4).bind fun _ _ _ r4 e4 => ?_
  obtain ⟨h5, h⟩ := h _ r4
  refine (u32_field hd (k := 24) (by omega) h5).bind fun _ _ _ r5 e5 => ?_
  obtain ⟨h6, h⟩ := h _ r5
  refine (u32_field hd (k := 28) (by omega) h6).bind fun _ _ _ r6 e6 => ?_
  obtain ⟨h7, h⟩ := h _ r6
  refine (u32_field hd (k := 32) (by omega) h7).bind fun _ _ _ r7 e7 => ?_
  obtain ⟨h8, -⟩ := h _ r7
  refine (u32_field hd (k := 36) (by omega) h8).bind fun _ _ _ _ _ => agree_pure ?_
  exact ⟨⟨rfl, e1, e2, e3, e4, e5, e6, e7⟩, by rw [hname _ r0, e0.1]⟩

/-- **The section headers read the same**, up to the one that stops both runs. -/
theorem readSections_agree (hd : d.length < 2 ^ 31) (he : HeaderLow e e') (h : HeadersSettled d e') :
    Agree (List.Forall₂ fun s t => SectionLow s t ∧ s.name = narrowName d e' t.index) (readSections d e)
      (readSections d e') := by
  have ho := toNat_at he.shoff.2 he.shentsize.2 he.shstrndx.2
  have hnum : e.shnum.toNat = e'.shnum.toNat := by
    rw [he.shnum.1, toNat_low_of_lt (he.shnum.2.trans (by decide))]
  have hn16 := he.shnum.2
  unfold readSections
  show Agree _ _ (u32 d (e'.at e'.shstrndx + 16) >>= fun shstr => _)
  rw [he.shstrndx.1, he.at, hnum]
  refine (u32_field hd (k := 16) (by omega) h.strings).bind fun shstr shstr' _ hs es => ?_
  rw [es.1]
  have hrange : List.Forall₂ (fun a b => a = b ∧ b < 2 ^ 16) (List.range e'.shnum.toNat)
      (List.range e'.shnum.toNat) :=
    List.forall₂_same.mpr fun n hn => ⟨rfl, (List.mem_range.mp hn).trans hn16⟩
  refine Agree.mapM_each hrange (h.headers _ hs) fun n n' hn hl => ?_
  rw [hn.1]
  exact readSection_agree hd he hs hn.2 hl

end Headers

/-! ## 3. The layout -/

theorem Word.toNat {n : Nat} {x : BitVec 32} {y : BitVec 64} (h : Word n x y) (hn : n ≤ 32) :
    x.toNat = y.toNat := by
  rw [h.1, toNat_low_of_lt (h.2.trans_le (Nat.pow_le_pow_right (by decide) hn))]

/-- A field is compared with the same constant. -/
theorem Word.eq_ofNat {x : BitVec 32} {y : BitVec 64} (h : Word 32 x y) {n : Nat} (hn : n < 2 ^ 32) :
    x = BitVec.ofNat 32 n ↔ y = BitVec.ofNat 64 n := by
  rw [h.1]
  exact low_eq_ofNat h.2 hn

/-- The integer as the script compares it. -/
theorem Word.toInt {x : BitVec 32} {y : BitVec 64} (h : Word 31 x y) : x.toInt = y.toInt := by
  rw [h.1, toInt_low h.2, toInt_wide (h.2.trans (by decide))]

theorem SectionLow.nobits {s : Section 32} {t : Section 64} (h : SectionLow s t) :
    s.nobits = t.nobits := by
  unfold Section.nobits
  rw [Bool.eq_iff_iff, beq_iff_eq, beq_iff_eq]
  exact h.type.eq_ofNat (by decide)

theorem SectionLow.alloc {s : Section 32} {t : Section 64} (h : SectionLow s t) :
    s.alloc = t.alloc := by
  have hw : Word 32 (s.flags &&& BitVec.ofNat 32 shfAlloc) (t.flags &&& BitVec.ofNat 64 shfAlloc) := by
    refine ⟨?_, lt_of_le_of_lt (BitVec.toNat_and .. ▸ Nat.and_le_left) h.flags.2⟩
    rw [low_and, low_ofNat (by omega), h.flags.1]
  unfold Section.alloc
  rw [Bool.eq_iff_iff, bne_iff_ne, bne_iff_ne]
  exact not_congr (hw.eq_ofNat (n := 0) (by decide))

/-- A loadable section whose size stays below the sign bit loads at both widths. -/
theorem SectionLow.loads {s : Section 32} {t : Section 64} (h : SectionLow s t)
    (hsize : t.alloc = true → t.size.toNat < 2 ^ 31) : s.loads = t.loads := by
  unfold Section.loads
  rw [h.alloc]
  cases ha : t.alloc with
  | false => rw [Bool.false_and, Bool.false_and]
  | true =>
    have hw : Word 31 s.size t.size := ⟨h.size.1, hsize ha⟩
    have e : (0 : BitVec 32).slt s.size = (0 : BitVec 64).slt t.size := by
      rw [slt_zero, slt_zero, hw.toInt]
    rw [e]

/-- The walk over the loadable sections from image length `len`, in exact arithmetic: no section ends at
    the sign bit or beyond, and none is rounded up over it. At length 0 there is nothing to round. -/
def narrowFrom : Nat → List (Section 64) → Bool
  | _, [] => true
  | len, s :: rest =>
    (decide (s.align.toInt ≤ 1) || decide (len = 0) || decide (len + s.align.toNat - 1 < 2 ^ 31)) &&
      decide (exactAlign s.align len + s.size.toNat < 2 ^ 31) &&
      narrowFrom (exactAlign s.align len + s.size.toNat) rest

/-- **The layout stays in the non-negative narrow integers.** -/
def NarrowLayout (sec : List (Section 64)) : Prop := narrowFrom 0 (loadOrder sec) = true

instance (sec : List (Section 64)) : Decidable (NarrowLayout sec) := inferInstanceAs (Decidable (_ = true))

theorem narrowFrom_cons {len : Nat} {s : Section 64} {rest : List (Section 64)} :
    narrowFrom len (s :: rest) = true ↔
      (s.align.toInt ≤ 1 ∨ len = 0 ∨ len + s.align.toNat - 1 < 2 ^ 31) ∧
        exactAlign s.align len + s.size.toNat < 2 ^ 31 ∧
        narrowFrom (exactAlign s.align len + s.size.toNat) rest = true := by
  simp only [narrowFrom, Bool.and_eq_true, Bool.or_eq_true, decide_eq_true_eq, or_assoc, and_assoc]

/-- The first pass of `place` is narrow if both are. -/
theorem narrowFrom_append {l l' : List (Section 64)} {len : Nat} (h : narrowFrom len (l ++ l') = true) :
    narrowFrom len l = true := by
  induction l generalizing len with
  | nil => rfl
  | cons s l ih =>
    obtain ⟨h1, h2, h3⟩ := narrowFrom_cons.mp h
    exact narrowFrom_cons.mpr ⟨h1, h2, ih h3⟩

/-- A section that ends below the sign bit is smaller than it. -/
theorem size_of_narrowFrom {l : List (Section 64)} {len : Nat} (h : narrowFrom len l = true) :
    ∀ s ∈ l, s.size.toNat < 2 ^ 31 := by
  induction l generalizing len with
  | nil => exact fun s hs => by cases hs
  | cons s l ih =>
    obtain ⟨-, hend, hrest⟩ := narrowFrom_cons.mp h
    intro t ht
    rcases List.mem_cons.mp ht with rfl | ht
    · omega
    · exact ih hrest t ht

/-- In a narrow layout every allocated section is smaller than the sign bit. -/
theorem size_of_narrow {sec : List (Section 64)} (h : NarrowLayout sec) {t : Section 64} (ht : t ∈ sec)
    (hlt : t.size.toNat < 2 ^ 32) (ha : t.alloc = true) : t.size.toNat < 2 ^ 31 := by
  by_cases h0 : t.size.toNat = 0
  · omega
  · have hl : t.loads = true := by
      unfold Section.loads
      rw [ha, Bool.true_and, slt_zero, decide_eq_true_eq, toInt_wide (by omega)]
      omega
    exact size_of_narrowFrom h t (mem_loadOrder.mpr ⟨ht, hl⟩)

/-- Each pass places the same sections. -/
theorem filter_low {sec : List (Section 32)} {sec' : List (Section 64)}
    (h : List.Forall₂ SectionLow sec sec') (hnarrow : NarrowLayout sec') (b : Bool) :
    List.Forall₂ SectionLow (sec.filter fun s => s.loads && s.nobits == b)
      (sec'.filter fun s => s.loads && s.nobits == b) := by
  have hall := forall₂_and_mem h
  refine (List.rel_filter (fun s t hst => ?_) hall).imp fun s t hst => hst.1
  have hsize : t.alloc = true → t.size.toNat < 2 ^ 31 := size_of_narrow hnarrow hst.2 hst.1.size.2
  show (s.loads && s.nobits == b) = true ↔ (t.loads && t.nobits == b) = true
  rw [hst.1.nobits, hst.1.loads hsize]

theorem loadOrder_low {sec : List (Section 32)} {sec' : List (Section 64)}
    (h : List.Forall₂ SectionLow sec sec') (hnarrow : NarrowLayout sec') :
    List.Forall₂ SectionLow (loadOrder sec) (loadOrder sec') :=
  List.rel_append (filter_low h hnarrow false) (filter_low h hnarrow true)

/-- The same bases and the same length, all of them below the sign bit. -/
structure LayoutLow (l : Layout 32) (l' : Layout 64) : Prop where
  base : ∀ n, l.base n = (l'.base n).map low
  imageLen : Word 31 l.imageLen l'.imageLen
  known : ∀ n b, l'.base n = some b → b.toNat < 2 ^ 31

theorem layoutLow_empty : LayoutLow ⟨fun _ => none, 0⟩ ⟨fun _ => none, 0⟩ :=
  ⟨fun _ => rfl, ⟨by decide, by decide⟩, fun n b hb => by cases hb⟩

/-- Rounding up agrees where it does not leave the narrow integers. -/
theorem exactAlign_low {a : BitVec 32} {a' : BitVec 64} (h : Word 32 a a') {len : Nat}
    (hfit : a'.toInt ≤ 1 ∨ len = 0 ∨ len + a'.toNat - 1 < 2 ^ 31) :
    exactAlign a len = exactAlign a' len ∧ (1 < a.toInt → len + a.toNat - 1 < 2 ^ 31) := by
  have hwide := toInt_wide (h.2.trans (by decide))
  have hn := h.toNat (le_refl 32)
  by_cases hs : a'.toNat < 2 ^ 31
  · have e : a.toInt = a'.toInt := Word.toInt ⟨h.1, hs⟩
    refine ⟨by unfold exactAlign; rw [e, hn], fun h1 => ?_⟩
    rw [hn]
    omega
  · -- negative at 32 bits: no rounding, and at length 0 none is needed
    obtain rfl : len = 0 := by omega
    have hneg : a.toInt < 0 := by
      rw [BitVec.toInt_eq_toNat_cond, hn]
      split <;> omega
    unfold exactAlign
    rw [if_neg (by omega), if_pos (by omega), Nat.div_eq_of_lt (by omega), Nat.zero_mul]
    exact ⟨rfl, fun h1 => by omega⟩

/-- At 64 bits rounding is exact. -/
theorem alignUp_wide {len a : BitVec 64} (hlen : len.toNat < 2 ^ 31) (ha : a.toNat < 2 ^ 32) :
    (alignUp len a).toNat = exactAlign a len.toNat :=
  alignUp_exact (by omega) fun _ => by omega

/-- **One section is placed at the same offset.** -/
theorem placeOne_low {l : Layout 32} {l' : Layout 64} (hl : LayoutLow l l') {s : Section 32}
    {t : Section 64} (hst : SectionLow s t)
    (halign : t.align.toInt ≤ 1 ∨ l'.imageLen.toNat = 0 ∨ l'.imageLen.toNat + t.align.toNat - 1 < 2 ^ 31)
    (hend : exactAlign t.align l'.imageLen.toNat + t.size.toNat < 2 ^ 31) :
    LayoutLow (placeOne l s) (placeOne l' t) := by
  have hlen := hl.imageLen.toNat (by omega)
  have hlt := hl.imageLen.2
  obtain ⟨e, hfit⟩ := exactAlign_low hst.align halign
  have hat : (alignUp l.imageLen s.align).toNat = exactAlign t.align l'.imageLen.toNat := by
    rw [alignUp_exact (le_refl 32) (by rw [hlen]; exact hfit), hlen, e]
  have hat' := alignUp_wide hlt hst.align.2
  have hword : Word 31 (alignUp l.imageLen s.align) (alignUp l'.imageLen t.align) := by
    refine ⟨BitVec.eq_of_toNat_eq ?_, by omega⟩
    rw [toNat_low_of_lt (by omega), hat, hat']
  have hsum : (alignUp l'.imageLen t.align + t.size).toNat =
      exactAlign t.align l'.imageLen.toNat + t.size.toNat := by
    rw [BitVec.toNat_add_of_lt (by omega), hat']
  refine ⟨fun n => ?_, ⟨?_, by show (alignUp _ _ + _).toNat < _; omega⟩, fun n b hb => ?_⟩
  · by_cases hn : n = t.index
    · simp only [placeOne, hst.index, hn, if_true, Option.map_some, hword.1]
    · simp only [placeOne, hst.index, hn, if_false]
      exact hl.base n
  · show alignUp _ _ + s.size = low (alignUp _ _ + t.size)
    rw [low_add (by omega), hword.1, hst.size.1]
  · by_cases hn : n = t.index
    · simp only [placeOne, hn, if_true, Option.some.injEq] at hb
      rw [← hb]
      exact hword.2
    · simp only [placeOne, hn, if_false] at hb
      exact hl.known n b hb

/-- Induction on the sections to come: a narrow walk stays narrow from the length it has reached. -/
theorem place_low {rest : List (Section 32)} {rest' : List (Section 64)}
    (h : List.Forall₂ SectionLow rest rest') {l : Layout 32} {l' : Layout 64} (hl : LayoutLow l l')
    (hnarrow : narrowFrom l'.imageLen.toNat rest' = true) :
    LayoutLow (rest.foldl placeOne l) (rest'.foldl placeOne l') := by
  induction h generalizing l l' with
  | nil => exact hl
  | @cons s t rest rest' hst hrest ih =>
    obtain ⟨halign, hend, hnext⟩ := narrowFrom_cons.mp hnarrow
    have hlt := hl.imageLen.2
    have hat := alignUp_wide hlt hst.align.2
    have hlen : (placeOne l' t).imageLen.toNat =
        exactAlign t.align l'.imageLen.toNat + t.size.toNat := by
      show (alignUp _ _ + _).toNat = _
      rw [BitVec.toNat_add_of_lt (by omega), hat]
    exact ih (placeOne_low hl hst halign hend) (by rw [hlen]; exact hnext)

/-- **A narrow layout is the same layout at both widths.** -/
theorem layout_low {sec : List (Section 32)} {sec' : List (Section 64)}
    (h : List.Forall₂ SectionLow sec sec') (hnarrow : NarrowLayout sec') :
    LayoutLow (layout sec) (layout sec') := by
  rw [layout_eq, layout_eq]
  exact place_low (loadOrder_low h hnarrow) layoutLow_empty hnarrow

/-- The length after the first pass, which the script compares with 0. -/
theorem storedEnd_low {sec : List (Section 32)} {sec' : List (Section 64)}
    (h : List.Forall₂ SectionLow sec sec') (hnarrow : NarrowLayout sec') :
    Word 31 (storedEnd sec) (storedEnd sec') := by
  have hfirst : narrowFrom 0 (sec'.filter fun s => s.loads && s.nobits == false) = true :=
    narrowFrom_append (show narrowFrom 0 (_ ++ _) = true from hnarrow)
  unfold storedEnd
  rw [place_eq, place_eq]
  exact (place_low (filter_low h hnarrow false) layoutLow_empty hfirst).imageLen

/-! ## 4. The image before relocation -/

/-- Every key of the wide image is a word, and none is 0. -/
def Inside {α : Type} (m : BitVec 64 → Option α) : Prop := ∀ k, k.toNat = 0 ∨ 2 ^ 32 ≤ k.toNat → m k = none

/-- The same bytes under every key that is an unsigned word, and none under another. -/
structure ImageLow (m : Image 32) (m' : Image 64) : Prop where
  same : ∀ k : BitVec 64, k.toNat < 2 ^ 32 → m (low k) = m' k
  inside : Inside m'

theorem Inside.set {m : Image 64} (h : Inside m) {k : BitVec 64} (h0 : 0 < k.toNat) (hk : k.toNat < 2 ^ 32)
    (b : UInt8) : Inside (m.set k b) := by
  intro i hi
  unfold Image.set
  rw [if_neg fun e => by rw [e] at hi; omega]
  exact h i hi

theorem Inside.blit {m : Image 64} (h : Inside m) {a : BitVec 64} {bs : List UInt8}
    (ha : a.toNat + bs.length < 2 ^ 32) : Inside (blit m a bs) := by
  induction bs generalizing m a with
  | nil => exact h
  | cons b bs ih =>
    rw [List.length_cons] at ha
    have hn := toNat_succ (x := a) (by omega)
    exact ih (h.set (by omega) (by omega) b) (by omega)

theorem ImageLow.set {m : Image 32} {m' : Image 64} (h : ImageLow m m') {k : BitVec 64}
    (h0 : 0 < k.toNat) (hk : k.toNat < 2 ^ 32) (b : UInt8) : ImageLow (m.set (low k) b) (m'.set k b) := by
  refine ⟨fun i hi => ?_, h.inside.set h0 hk b⟩
  unfold Image.set
  by_cases e : i = k
  · rw [if_pos (by rw [e]), if_pos e]
  · rw [if_neg fun e' => e ((low_inj hi hk).mp e'), if_neg e]
    exact h.same i hi

/-- One less, of a word: -1 for 0. -/
theorem toInt_pred {x : BitVec 64} (h : x.toNat < 2 ^ 63) : (x - 1).toInt = x.toNat - 1 := by
  have h1 : (1 : BitVec 64).toInt = 1 := by decide
  rw [BitVec.toInt_sub, toInt_wide h, h1]
  exact Int.bmod_eq_of_le (by omega) (by omega)

/-- The loop that fills the image writes the keys from 1 to its length. -/
theorem inside_blank {len : BitVec 64} (hlen : len.toNat < 2 ^ 31) : Inside (blank len) := by
  intro k hk
  refine if_neg fun ⟨h0, hle⟩ => ?_
  rw [toInt_pred (x := len) (by omega)] at hle
  rcases hk with hk | hk
  · rw [show k = 0 from BitVec.eq_of_toNat_eq hk] at h0
    exact absurd h0 (by decide)
  · rw [toInt_wide (toNat_lt_of_toInt_nonneg h0)] at hle
    have e1 : (k - 1).toNat = k.toNat - 1 := by
      rw [BitVec.toNat_sub_of_le (by rw [BitVec.le_def]; simp; omega)]
      rfl
    omega

theorem blank_low {len : BitVec 32} {len' : BitVec 64} (h : Word 31 len len') :
    ImageLow (blank len) (blank len') := by
  refine ⟨fun k hk => ?_, inside_blank h.2⟩
  have hlen := h.toNat (by omega)
  have hlt := h.2
  have hk32 := toNat_low_of_lt hk
  have h1 : (1 : BitVec 32).toInt = 1 := by decide
  have h1' : (1 : BitVec 32).toNat = 1 := by decide
  have e1 : (len - 1).toInt = len'.toNat - 1 := by
    rw [BitVec.toInt_sub, h.toInt, toInt_wide (by omega), h1]
    exact Int.bmod_eq_of_le (by omega) (by omega)
  have hiff : (0 ≤ (low k - 1).toInt ∧ (low k - 1).toInt ≤ (len - 1).toInt) ↔
      (0 ≤ (k - 1).toInt ∧ (k - 1).toInt ≤ (len' - 1).toInt) := by
    rw [e1, toInt_pred (x := len') (by omega), toInt_pred (x := k) (by omega), BitVec.toInt_eq_toNat_cond,
      BitVec.toNat_sub, hk32, h1']
    split <;> omega
  unfold blank
  exact if_congr hiff rfl rfl

/-- One section's bytes under the same keys, which stay words. -/
theorem blit_low {m : Image 32} {m' : Image 64} (h : ImageLow m m') {a : BitVec 64}
    {bs : List UInt8} (ha : a.toNat + bs.length < 2 ^ 32) :
    ImageLow (blit m (low a) bs) (blit m' a bs) := by
  induction bs generalizing m m' a with
  | nil => exact h
  | cons b bs ih =>
    rw [List.length_cons] at ha
    have hn := toNat_succ (x := a) (by omega)
    rw [blit, blit, low_succ]
    exact ih (h.set (by omega) (by omega) b) (by omega)

/-- **objcopy's answer is taken or refused alike**, if it is asked for the same name. -/
theorem sectionBytes_agree {host : Host} {s : Section 32} {t : Section 64} (h : SectionLow s t)
    (hname : s.name = t.name) (hsize : t.size.toNat < 2 ^ 31) :
    Agree (fun b b' => b = b' ∧ b.length < 2 ^ 31) (sectionBytes host s) (sectionBytes host t) := by
  unfold sectionBytes
  rw [hname]
  cases host.objcopy t.name with
  | failed => exact .error _ _
  | nothing => exact .error _ _
  | bytes b =>
    have m32 : maxString 32 = 2 ^ 31 - 1 := rfl
    have m64 : maxString 64 = 2 ^ 63 - 1 := rfl
    by_cases hb : b.length < 2 ^ 31
    · have r32 : readAll 32 b = .ok b := if_pos (by omega)
      have r64 : readAll 64 b = .ok b := if_pos (by omega)
      have hiff : BitVec.ofNat 32 b.length ≠ s.size ↔ BitVec.ofNat 64 b.length ≠ t.size := by
        rw [ne_comm, ne_comm (b := t.size)]
        exact not_congr (h.size.eq_ofNat (by omega))
      show Agree _ (readAll 32 b >>= _) (readAll 64 b >>= _)
      rw [r32, r64]
      exact (dieIf_agree hiff).bind fun _ _ _ _ _ =>
        agree_pure (show b = b ∧ b.length < 2 ^ 31 from ⟨rfl, hb⟩)
    · -- more than the narrow interpreter can hold is not the size in the header either
      have r32 : readAll 32 b = .error .memory := if_neg (by omega)
      show Agree _ (readAll 32 b >>= _) (readAll 64 b >>= _)
      rw [r32]
      by_cases hb' : b.length ≤ maxString 64
      · have r64 : readAll 64 b = .ok b := if_pos hb'
        have hne : BitVec.ofNat 64 b.length ≠ t.size := by
          intro e
          have := congrArg BitVec.toNat e
          rw [BitVec.toNat_ofNat, Nat.mod_eq_of_lt (by omega)] at this
          omega
        rw [r64]
        show Agree _ _ (dieIf _ _ >>= _)
        rw [dieIf, if_pos hne]
        exact .error _ _
      · have r64 : readAll 64 b = .error .memory := if_neg hb'
        rw [r64]
        exact .error _ _

/-- Each section objcopy is asked for, up to the one that stops the run, has the same name where the
    position of the name is computed at 32 bits. -/
def NamesHeld (host : Host) (d : List UInt8) (e : Header 64) (sec : List (Section 64)) : Prop :=
  EachRound (blitStep host (layout sec).base)
    (fun _ s => ((layout sec).base s.index).isSome = true → s.nobits = false → narrowName d e s.index = s.name)
    sec (blank (layout sec).imageLen)

instance (host : Host) (d : List UInt8) (e : Header 64) (sec : List (Section 64)) : Decidable (NamesHeld host d e sec) :=
  inferInstanceAs (Decidable (EachRound _ _ _ _))

/-- **The image before relocation is the same image.** -/
theorem blitAll_agree {host : Host} {d : List UInt8} {e : Header 64} {sec : List (Section 32)}
    {sec' : List (Section 64)}
    (h : List.Forall₂ (fun s t => SectionLow s t ∧ s.name = narrowName d e t.index) sec sec')
    (hnarrow : NarrowLayout sec') (hnd : (sec'.map (·.index)).Nodup) (hnames : NamesHeld host d e sec') :
    Agree ImageLow (blitAll host sec (layout sec)) (blitAll host sec' (layout sec')) := by
  have hl := layout_low (h.imp fun _ _ h => h.1) hnarrow
  refine Agree.foldlM_each (forall₂_and_mem h) (fun m m' s t hst hm hheld => ?_) (blank_low hl.imageLen) hnames
  obtain ⟨⟨hst, hname⟩, ht⟩ := hst
  unfold blitStep
  rw [hl.base, hst.index]
  cases hb : (layout sec').base t.index with
  | none => exact .ok hm
  | some b =>
    have hsize : t.size.toNat < 2 ^ 31 := by
      obtain ⟨t', ht', e, hload⟩ := base_layout_isSome.mp (by rw [hb]; rfl)
      obtain rfl := List.inj_on_of_nodup_map hnd ht' ht e
      rw [Section.loads, Bool.and_eq_true] at hload
      exact size_of_narrow hnarrow ht hst.size.2 hload.1
    have hbound := hl.known _ b hb
    rw [Option.map_some, hst.nobits]
    show Agree _ (if _ then _ else _) (if _ then _ else _)
    refine agree_ite Iff.rfl (fun _ _ => .ok hm) fun hno _ => ?_
    have hsame : s.name = t.name :=
      hname.trans (hheld (by rw [hb]; rfl) (Bool.eq_false_of_not_eq_true hno))
    refine (sectionBytes_agree hst hsame hsize).bind fun bs bs' _ _ e => agree_pure ?_
    rw [← e.1]
    have := e.2
    exact blit_low hm (by omega)

end P4Linux.Mkflt
