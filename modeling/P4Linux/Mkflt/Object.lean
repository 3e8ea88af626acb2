import P4Linux.Lib.LuaInt

/-!
# mkflt.lua, part 1: reading the object file and laying it out

`board/mkflt.lua` up to and including the section bytes, at a Lua integer width `w`: the board's
interpreter is built with 32-bit integers, a host's has 64. Every number the script computes is a
`BitVec w`, every literal wraps to `w`, and a table is a function from its keys (`base` and `sec`
by section index, `image` by the integer itself, so that a wrapped index is a different key).

* `Err` -- an abort: `die` with the script's own text, `nilValue` where the interpreter stops on
  arithmetic with nil, `memory` where a string would be longer than the interpreter can hold;
* `Host` -- what the script cannot decide: what objcopy writes for a section name, and whether the
  output can be opened;
* `u8`, `u16`, `u32`, `s32` -- reads at a position, which a negative one counts from the end;
* `readHeader`, `readSections` -- the ELF header and the section headers;
* `placeStep`, `layout` -- where each section comes to lie;
* `sectionBytes`, `blitAll` -- the image before relocation.
-/

namespace P4Linux.Mkflt

open Lua

/-! ## 1. Constants and errors -/

/-- `"bFLT"`. -/
def flatMagic : List UInt8 := [0x62, 0x46, 0x4c, 0x54]
def flatVersion : Nat := 4
def flatHdrSize : Nat := 64
def flatFlagRam : Nat := 0x1
def defaultStack : Nat := 8192

def shtSymtab : Nat := 2
def shtRela : Nat := 4
def shtNobits : Nat := 8
def shtRel : Nat := 9
def shfAlloc : Nat := 0x2
def shnUndef : Nat := 0
def shnAbs : Nat := 0xfff1
def emRiscv : Nat := 243
def etRel : Nat := 1

inductive Err where
  | die (text : String)
  | nilValue
  | memory
  deriving DecidableEq, Repr

/-- `die(fmt, ...)`: the message is the script's, the exit status is 1. -/
def die {α : Type} (text : String) : Except Err α := .error (.die text)

/-- `if c then die(...) end`. -/
def dieIf (c : Prop) [Decidable c] (text : String) : Except Err Unit := if c then die text else .ok ()

/-- A byte string as text in a message. -/
def str (s : List UInt8) : String := String.ofList (s.map fun b => Char.ofNat b.toNat)

/-- `%x`. -/
def hex {w : Nat} (x : BitVec w) : String := String.ofList (Nat.toDigits 16 x.toNat)

/-- `%d`. -/
def dec {w : Nat} (x : BitVec w) : String := toString x.toInt

/-- What objcopy leaves behind for `--only-section=NAME`. -/
inductive Objcopy where
  | failed
  | nothing
  | bytes (b : List UInt8)
  deriving DecidableEq, Repr

/-- The world around the script: the two paths, objcopy, and whether OUTPUT can be opened. -/
structure Host where
  obj : String
  out : String
  objcopy : List UInt8 → Objcopy
  canWrite : Bool

variable {w : Nat}

/-! ## 2. Byte access -/

/-- `f:read("a")`. -/
def readAll (w : Nat) (b : List UInt8) : Except Err (List UInt8) :=
  if b.length ≤ maxString w then .ok b else .error .memory

/-- A byte as a Lua integer. -/
def num (b : UInt8) : BitVec w := b.toBitVec.setWidth w

/-- A byte as an operand: `nil` is an error of the interpreter. -/
def operand (b : Option UInt8) : Except Err (BitVec w) :=
  match b with
  | some b => .ok (num b)
  | none => .error .nilValue

def u8 (d : List UInt8) (o : BitVec w) : Option UInt8 := byteAt d (o + 1)

def u16 (d : List UInt8) (o : BitVec w) : Except Err (BitVec w) := do
  let b0 ← operand (u8 d o)
  let b1 ← operand (w := w) (u8 d (o + 1))
  pure (b0 ||| (b1 <<< 8))

/-- Four bytes, little-endian, joined with `|` and `<<` (at 32 bits the top one lands in the
    sign). -/
def join (b0 b1 b2 b3 : BitVec w) : BitVec w := b0 ||| (b1 <<< 8) ||| (b2 <<< 16) ||| (b3 <<< 24)

def u32 (d : List UInt8) (o : BitVec w) : Except Err (BitVec w) := do
  let b0 ← operand (u8 d o)
  let b1 ← operand (u8 d (o + 1))
  let b2 ← operand (u8 d (o + 2))
  let b3 ← operand (u8 d (o + 3))
  pure (join b0 b1 b2 b3)

def s32 (d : List UInt8) (o : BitVec w) : Except Err (BitVec w) := do
  let v ← u32 d o
  pure (if (BitVec.ofNat w 0x80000000).sle v then v - BitVec.ofNat w 0x100000000 else v)

def be32 (n : BitVec w) : List UInt8 :=
  [⟨(n >>> 24).setWidth 8⟩, ⟨(n >>> 16).setWidth 8⟩, ⟨(n >>> 8).setWidth 8⟩, ⟨n.setWidth 8⟩]

/-! ## 3. The ELF header and the sections -/

structure Header (w : Nat) where
  shoff : BitVec w
  shentsize : BitVec w
  shnum : BitVec w
  shstrndx : BitVec w

/-- "read and validate the object". -/
def readHeader (host : Host) (d : List UInt8) : Except Err (Header w) := do
  dieIf (d.length < 52 ∨ d.take 4 ≠ [127, 69, 76, 70]) s!"{host.obj} is not an ELF file"
  dieIf (u8 d (4 : BitVec w) ≠ some 1) s!"{host.obj} is not ELF32"
  dieIf (u8 d (5 : BitVec w) ≠ some 1) s!"{host.obj} is not little-endian"
  let e_type ← u16 d (16 : BitVec w)
  dieIf (e_type ≠ BitVec.ofNat w etRel)
    (host.obj ++ " is not a relocatable object (as leaves ET_REL; this is type " ++ dec e_type ++ ")")
  let e_machine ← u16 d (18 : BitVec w)
  dieIf (e_machine ≠ BitVec.ofNat w emRiscv) s!"{host.obj} is not RISC-V"
  let shoff ← u32 d 32
  let shentsize ← u16 d 46
  let shnum ← u16 d 48
  let shstrndx ← u16 d 50
  dieIf (shoff = 0 ∨ shnum = 0) s!"{host.obj} has no section headers"
  pure ⟨shoff, shentsize, shnum, shstrndx⟩

structure Section (w : Nat) where
  index : Nat
  name : List UInt8
  type : BitVec w
  flags : BitVec w
  offset : BitVec w
  size : BitVec w
  link : BitVec w
  info : BitVec w
  align : BitVec w
  entsize : BitVec w

def shname (d : List UInt8) (shstr off : BitVec w) : List UInt8 :=
  uptoNul (subFrom d (shstr + off + 1))

def readSection (d : List UInt8) (e : Header w) (shstr : BitVec w) (n : Nat) :
    Except Err (Section w) := do
  let o := e.shoff + BitVec.ofNat w n * e.shentsize
  let name ← u32 d o
  let type ← u32 d (o + 4)
  let flags ← u32 d (o + 8)
  let offset ← u32 d (o + 16)
  let size ← u32 d (o + 20)
  let link ← u32 d (o + 24)
  let info ← u32 d (o + 28)
  let align ← u32 d (o + 32)
  let entsize ← u32 d (o + 36)
  pure ⟨n, shname d shstr name, type, flags, offset, size, link, info, align, entsize⟩

def readSections (d : List UInt8) (e : Header w) : Except Err (List (Section w)) := do
  let shstr ← u32 d (e.shoff + e.shstrndx * e.shentsize + 16)
  (List.range e.shnum.toNat).mapM (readSection d e shstr)

/-! ## 4. Layout -/

/-- `base` (section index to image offset) and `image_len`. -/
structure Layout (w : Nat) where
  base : Nat → Option (BitVec w)
  imageLen : BitVec w

def Section.nobits (s : Section w) : Bool := s.type == BitVec.ofNat w shtNobits

def Section.alloc (s : Section w) : Bool := s.flags &&& BitVec.ofNat w shfAlloc != 0

/-- The sections `place` takes, contents and NOBITS alike. -/
def Section.loads (s : Section w) : Bool := s.alloc && (0 : BitVec w).slt s.size

/-- `image_len` rounded up to the section's alignment. -/
def alignUp (len a : BitVec w) : BitVec w :=
  if (1 : BitVec w).slt a then idiv (len + a - 1) a * a else len

def placeStep (wantNobits : Bool) (l : Layout w) (s : Section w) : Layout w :=
  if s.loads && s.nobits == wantNobits then
    let at' := alignUp l.imageLen s.align
    ⟨fun n => if n = s.index then some at' else l.base n, at' + s.size⟩
  else l

def place (wantNobits : Bool) (sec : List (Section w)) (l : Layout w) : Layout w :=
  sec.foldl (placeStep wantNobits) l

/-- Both passes: contents first, `.bss` after them. -/
def layout (sec : List (Section w)) : Layout w :=
  place true sec (place false sec ⟨fun _ => none, 0⟩)

/-- `stored_end`: the image length after the first pass. -/
def storedEnd (sec : List (Section w)) : BitVec w := (place false sec ⟨fun _ => none, 0⟩).imageLen

/-! ## 5. The image -/

/-- The table `image`: key `off + 1` holds the byte at image offset `off`. -/
abbrev Image (w : Nat) := BitVec w → Option UInt8

def Image.set (m : Image w) (k : BitVec w) (b : UInt8) : Image w := fun i => if i = k then some b else m i

/-- `for n = 0, image_len - 1 do image[n + 1] = 0 end`. -/
def blank (len : BitVec w) : Image w := fun k =>
  if 0 ≤ (k - 1).toInt ∧ (k - 1).toInt ≤ (len - 1).toInt then some 0 else none

def blit (m : Image w) (at' : BitVec w) : List UInt8 → Image w
  | [] => m
  | b :: bs => blit (m.set (at' + 1) b) (at' + 1) bs

/-- The bytes objcopy gives for one section, of the length the section header says. -/
def sectionBytes (host : Host) (s : Section w) : Except Err (List UInt8) :=
  match host.objcopy s.name with
  | .failed => die ("objcopy failed on section " ++ str s.name)
  | .nothing => die ("objcopy wrote nothing for " ++ str s.name)
  | .bytes b => do
    let b ← readAll w b
    dieIf (BitVec.ofNat w b.length ≠ s.size)
      ("objcopy gave " ++ toString b.length ++ " bytes for " ++ str s.name ++
        ", section header says " ++ dec s.size)
    pure b

def blitStep (host : Host) (base : Nat → Option (BitVec w)) (m : Image w) (s : Section w) :
    Except Err (Image w) :=
  match base s.index with
  | some at' =>
    if s.nobits then .ok m
    else do
      let b ← sectionBytes host s
      pure (blit m at' b)
  | none => .ok m

def blitAll (host : Host) (sec : List (Section w)) (l : Layout w) : Except Err (Image w) :=
  sec.foldlM (blitStep host l.base) (blank l.imageLen)

def rd32 (m : Image w) (off : BitVec w) : Except Err (BitVec w) := do
  let b0 ← operand (m (off + 1))
  let b1 ← operand (m (off + 2))
  let b2 ← operand (m (off + 3))
  let b3 ← operand (m (off + 4))
  pure (join b0 b1 b2 b3)

/-- Byte `k` of a word, as `(v >> 8 * k) & 0xff` leaves it. -/
def byteOf (v : BitVec w) (k : Nat) : UInt8 := ⟨(v >>> (8 * k)).setWidth 8⟩

def wr32 (m : Image w) (off v : BitVec w) : Image w :=
  (((m.set (off + 1) (byteOf v 0)).set (off + 2) (byteOf v 1)).set (off + 3) (byteOf v 2)).set
    (off + 4) (byteOf v 3)

end P4Linux.Mkflt
