import P4Linux.Mkflt.Object

/-!
# mkflt.lua, part 2: symbols, relocations, the output file

The relocation loop is two nested `for` loops over the RELA/REL sections whose target is placed;
here it is one fold over the entries in the same order.

* `readSymbols`, `symaddr` -- the symbol table, and the address of a symbol or an abort that names it;
* `putU`, `putI`, `putS`, `putB`, `putJ` -- the instruction fields as the script writes them;
* `relocSites`, `readReloc` -- the entries, in the order of the loop;
* `applyReloc` -- one entry, applied to the two things the loop changes: the image and `hi20_at`;
* `blob`, `header` -- the image in chunks of 200 bytes, and the 64 bytes before it;
* `mkflt` -- the script.
-/

namespace P4Linux.Mkflt

open Lua

variable {w : Nat}

/-! ## 1. Symbols -/

structure Symbol (w : Nat) where
  name : List UInt8
  addr : Option (BitVec w)
  shndx : BitVec w

/-- `sec[k]` for an integer key. -/
def secAt (sec : List (Section w)) (k : BitVec w) : Option (Section w) := sec[k.toNat]?

/-- `base[k]` for an integer key. -/
def Layout.at? (l : Layout w) (k : BitVec w) : Option (BitVec w) := l.base k.toNat

/-- The last SYMTAB section, with the section its `sh_link` names. -/
def findSymtab (sec : List (Section w)) : Option (Section w × Option (Section w)) :=
  sec.foldl (fun r s => if s.type = BitVec.ofNat w shtSymtab then some (s, secAt sec s.link) else r)
    none

def symname (d : List UInt8) (strtab : Option (Section w)) (off : BitVec w) :
    Except Err (List UInt8) :=
  match strtab with
  | some t => .ok (uptoNul (subFrom d (t.offset + off + 1)))
  | none => .error .nilValue

/-- The address the symbol loop gives a symbol. -/
def symbolAddr (l : Layout w) (shndx value : BitVec w) : Option (BitVec w) :=
  if shndx = BitVec.ofNat w shnAbs then some value
  else if shndx = BitVec.ofNat w shnUndef then none -- reported at use, with its name
  else match l.at? shndx with
    | some b => some (b + value)
    | none => some value -- non-allocatable: debug info etc.

def readSymbol (d : List UInt8) (l : Layout w) (symtab : Section w) (strtab : Option (Section w))
    (k : Nat) : Except Err (Symbol w) := do
  let o := symtab.offset + BitVec.ofNat w k * 16
  let shndx ← u16 d (o + 14)
  let value ← u32 d (o + 4)
  let off ← u32 d o
  let name ← symname d strtab off
  pure ⟨name, symbolAddr l shndx value, shndx⟩

def readSymbols (host : Host) (d : List UInt8) (sec : List (Section w)) (l : Layout w) :
    Except Err (List (Symbol w)) :=
  match findSymtab sec with
  | none => die s!"{host.obj} has no symbol table"
  | some (symtab, strtab) =>
    (List.range (idiv symtab.size 16).toInt.toNat).mapM (readSymbol d l symtab strtab)

def symaddr (host : Host) (syms : List (Symbol w)) (k : Nat) : Except Err (BitVec w) :=
  match syms[k]? with
  | none => die ("relocation names symbol " ++ toString k ++ ", which does not exist")
  | some s =>
    match s.addr with
    | some a => .ok a
    | none => die ("undefined symbol '" ++ (if s.name ≠ [] then str s.name else "#" ++ toString k) ++
        "'.\nmkflt.lua: there is no linker and no libraries here -- every symbol must be\n" ++
        "mkflt.lua: defined in " ++ host.obj ++ " itself.")

/-! ## 2. Relocation types -/

namespace R
def none : Nat := 0
def rv32 : Nat := 1
def branch : Nat := 16
def jal : Nat := 17
def call : Nat := 18
def callPlt : Nat := 19
def gotHi20 : Nat := 20
def pcrelHi20 : Nat := 23
def pcrelLo12I : Nat := 24
def pcrelLo12S : Nat := 25
def hi20 : Nat := 26
def lo12I : Nat := 27
def lo12S : Nat := 28
def add8 : Nat := 33
def add16 : Nat := 34
def add32 : Nat := 35
def sub8 : Nat := 37
def sub16 : Nat := 38
def sub32 : Nat := 39
def align : Nat := 43
def rvcBranch : Nat := 44
def rvcJump : Nat := 45
def relax : Nat := 51
def sub6 : Nat := 52
def set6 : Nat := 53
def set8 : Nat := 54
def set16 : Nat := 55
def set32 : Nat := 56
def rv32Pcrel : Nat := 57
end R

/-- `RNAME`. -/
def rname (t : Nat) : Option String :=
  ([(R.none, "NONE"), (R.rv32, "RV32"), (R.branch, "BRANCH"), (R.jal, "JAL"), (R.call, "CALL"),
    (R.callPlt, "CALL_PLT"), (R.gotHi20, "GOT_HI20"), (R.pcrelHi20, "PCREL_HI20"),
    (R.pcrelLo12I, "PCREL_LO12_I"), (R.pcrelLo12S, "PCREL_LO12_S"), (R.hi20, "HI20"),
    (R.lo12I, "LO12_I"), (R.lo12S, "LO12_S"), (R.add8, "ADD8"), (R.add16, "ADD16"),
    (R.add32, "ADD32"), (R.sub8, "SUB8"), (R.sub16, "SUB16"), (R.sub32, "SUB32"),
    (R.align, "ALIGN"), (R.rvcBranch, "RVC_BRANCH"), (R.rvcJump, "RVC_JUMP"), (R.relax, "RELAX"),
    (R.sub6, "SUB6"), (R.set6, "SET6"), (R.set8, "SET8"), (R.set16, "SET16"), (R.set32, "SET32"),
    (R.rv32Pcrel, "RV32_PCREL")].lookup t).map ("R_RISCV_" ++ ·)

/-! ## 3. Instruction field encoders -/

def putU (x v : BitVec w) : BitVec w :=
  (x &&& BitVec.ofNat w 0xfff) ||| ((v &&& BitVec.ofNat w 0xfffff) <<< 12)

def putI (x v : BitVec w) : BitVec w :=
  (x &&& BitVec.ofNat w 0xfffff) ||| ((v &&& BitVec.ofNat w 0xfff) <<< 20)

def putS (x v : BitVec w) : BitVec w :=
  (x &&& BitVec.ofNat w 0x1fff07f) ||| (((v >>> 5) &&& BitVec.ofNat w 0x7f) <<< 25) |||
    ((v &&& BitVec.ofNat w 0x1f) <<< 7)

def putB (x v : BitVec w) : BitVec w :=
  (x &&& BitVec.ofNat w 0x1fff07f) ||| (((v >>> 12) &&& BitVec.ofNat w 0x1) <<< 31) |||
    (((v >>> 5) &&& BitVec.ofNat w 0x3f) <<< 25) ||| (((v >>> 1) &&& BitVec.ofNat w 0xf) <<< 8) |||
    (((v >>> 11) &&& BitVec.ofNat w 0x1) <<< 7)

def putJ (x v : BitVec w) : BitVec w :=
  (x &&& BitVec.ofNat w 0xfff) ||| (((v >>> 20) &&& BitVec.ofNat w 0x1) <<< 31) |||
    (((v >>> 1) &&& BitVec.ofNat w 0x3ff) <<< 21) ||| (((v >>> 11) &&& BitVec.ofNat w 0x1) <<< 20) |||
    (((v >>> 12) &&& BitVec.ofNat w 0xff) <<< 12)

/-- The upper part of a distance, rounded (`>>` is Lua's logical shift). -/
def hi20 (v : BitVec w) : BitVec w := (v + BitVec.ofNat w 0x800) >>> 12

/-- The lower part that goes with `hi20`. -/
def lo12 (v : BitVec w) : BitVec w := v - (hi20 v <<< 12)

def checkRange (v : BitVec w) (bits : Nat) (what : String) (off : BitVec w) : Except Err Unit :=
  let limit := (1 : BitVec w) <<< (bits - 1)
  dieIf (limit.sle v ∨ v.slt (-limit))
    (what ++ " at image offset 0x" ++ hex off ++ " is " ++ dec v ++ " bytes away, out of " ++
      toString bits ++ "-bit range.\nmkflt.lua: a linker would relax this; there is no linker.")

/-! ## 4. The relocation loop -/

/-- One entry as the loop reads it; `loc` is the source's `at`, the image offset of the field. -/
structure Reloc (w : Nat) where
  loc : BitVec w
  rtype : Nat
  rsym : Nat
  addend : BitVec w
  /-- the target section and the offset in it (`sh_info`, `r_off`) -/
  target : Nat
  roff : BitVec w
  deriving DecidableEq, Repr

structure LinkState (w : Nat) where
  image : Image w
  hi20At : BitVec w → Option (BitVec w)

def Section.isReloc (s : Section w) : Bool :=
  s.type == BitVec.ofNat w shtRela || s.type == BitVec.ofNat w shtRel

def Section.isRela (s : Section w) : Bool := s.type == BitVec.ofNat w shtRela

/-- The size of an entry of a RELA or REL section. -/
def Section.esz (s : Section w) : Nat := if s.isRela then 12 else 8

/-- The entries the loop visits, in order: section, base of its target, entry number. -/
def relocSites (sec : List (Section w)) (l : Layout w) : List (Section w × BitVec w × Nat) :=
  sec.flatMap fun s =>
    if s.isReloc then
      match l.at? s.info with
      | some b => (List.range (idiv s.size (BitVec.ofNat w s.esz)).toInt.toNat).map (s, b, ·)
      | none => []
    else []

/-- `(s.type == SHT_RELA) and s32(o + 8) or 0`. -/
def readAddend (d : List UInt8) (s : Section w) (o : BitVec w) : Except Err (BitVec w) :=
  if s.isRela then s32 d (o + 8) else .ok 0

def readReloc (d : List UInt8) (site : Section w × BitVec w × Nat) : Except Err (Reloc w) := do
  let (s, b, k) := site
  let o := s.offset + BitVec.ofNat w k * BitVec.ofNat w s.esz
  let r_off ← u32 d o
  let r_info ← u32 d (o + 4)
  let addend ← readAddend d s o
  pure ⟨b + r_off, (r_info &&& BitVec.ofNat w 0xff).toNat,
    ((r_info >>> 8) &&& BitVec.ofNat w 0xffffff).toNat, addend, s.info.toNat, r_off⟩

/-- The label arithmetic of data: the types the loop treats alike up to the width. -/
def isDataArith (t : Nat) : Bool :=
  [R.add8, R.add16, R.add32, R.sub8, R.sub16, R.sub32, R.sub6, R.set6, R.set8, R.set16,
    R.set32].contains t

/-- `wr32(at, f(rd32(at)))`. -/
def modify (st : LinkState w) (off : BitVec w) (f : BitVec w → BitVec w) :
    Except Err (LinkState w) := do
  let x ← rd32 st.image off
  pure { st with image := wr32 st.image off (f x) }

/-- The name a message gives a symbol. -/
def symLabel (syms : List (Symbol w)) (k : Nat) (missing : String) : String :=
  match syms[k]? with
  | some s => str s.name
  | none => missing

def applyReloc (host : Host) (syms : List (Symbol w)) (st : LinkState w) (r : Reloc w) :
    Except Err (LinkState w) :=
  if r.rtype = R.none ∨ r.rtype = R.relax then .ok st
  else if r.rtype = R.rv32 then
    die ("R_RISCV_32 at image offset 0x" ++ hex r.loc ++ ": a stored pointer (.word " ++
      symLabel syms r.rsym "?" ++ ").\nmkflt.lua: that needs a load-time relocation, which a " ++
      "single-segment flat binary cannot have.\nmkflt.lua: compute the address at run time " ++
      "instead:  lla reg, " ++ symLabel syms r.rsym "sym")
  else if r.rtype = R.rv32Pcrel then do
    let s ← symaddr host syms r.rsym
    pure { st with image := wr32 st.image r.loc (s + r.addend - r.loc) }
  else if r.rtype = R.gotHi20 then
    die ("R_RISCV_GOT_HI20 at image offset 0x" ++ hex r.loc ++ ".\nmkflt.lua: `la` under .option " ++
      "pic needs a global offset table, and a flat\nmkflt.lua: binary built this way has none. " ++
      "Use `lla`.")
  else if r.rtype = R.pcrelHi20 then do
    let s ← symaddr host syms r.rsym
    let v := s + r.addend - r.loc
    modify { st with hi20At := fun i => if i = r.loc then some v else st.hi20At i } r.loc
      (putU · (hi20 v))
  else if r.rtype = R.pcrelLo12I ∨ r.rtype = R.pcrelLo12S then do
    -- the symbol is the LABEL ON THE HI20 INSTRUCTION, not the thing being addressed
    let site ← symaddr host syms r.rsym
    match st.hi20At site with
    | none => die ("R_RISCV_" ++ (if r.rtype = R.pcrelLo12I then "PCREL_LO12_I" else "PCREL_LO12_S") ++
        " at 0x" ++ hex r.loc ++ " refers to 0x" ++ hex site ++ ", which is not a PCREL_HI20 site")
    | some v =>
      if r.rtype = R.pcrelLo12I then modify st r.loc (putI · (lo12 v))
      else modify st r.loc (putS · (lo12 v))
  else if r.rtype = R.hi20 then do
    let s ← symaddr host syms r.rsym
    modify st r.loc (putU · (hi20 (s + r.addend)))
  else if r.rtype = R.lo12I then do
    let s ← symaddr host syms r.rsym
    modify st r.loc (putI · (lo12 (s + r.addend)))
  else if r.rtype = R.lo12S then do
    let s ← symaddr host syms r.rsym
    modify st r.loc (putS · (lo12 (s + r.addend)))
  else if r.rtype = R.branch then do
    let s ← symaddr host syms r.rsym
    checkRange (s + r.addend - r.loc) 13 "branch" r.loc
    modify st r.loc (putB · (s + r.addend - r.loc))
  else if r.rtype = R.jal then do
    let s ← symaddr host syms r.rsym
    checkRange (s + r.addend - r.loc) 21 "jal" r.loc
    modify st r.loc (putJ · (s + r.addend - r.loc))
  else if r.rtype = R.call ∨ r.rtype = R.callPlt then do
    let s ← symaddr host syms r.rsym
    let v := s + r.addend - r.loc
    let st ← modify st r.loc (putU · (hi20 v))
    modify st (r.loc + 4) (putI · (lo12 v))
  else if isDataArith r.rtype then do
    let s ← symaddr host syms r.rsym
    let v := s + r.addend
    if r.rtype = R.add32 then modify st r.loc (· + v)
    else if r.rtype = R.sub32 then modify st r.loc (· - v)
    else if r.rtype = R.set32 then pure { st with image := wr32 st.image r.loc v }
    else die ("R_RISCV_" ++ (rname r.rtype).getD (toString r.rtype) ++ " at image offset 0x" ++
      hex r.loc ++ " is not supported in loadable data")
  else if r.rtype = R.align then
    die ("R_RISCV_ALIGN at image offset 0x" ++ hex r.loc ++ ".\nmkflt.lua: this object was " ++
      "assembled with relaxation on, which leaves the\nmkflt.lua: instruction stream for a linker " ++
      "to shrink. Assemble with -mno-relax.")
  else
    die ("unsupported relocation " ++ (rname r.rtype).getD "type" ++ " (" ++ toString r.rtype ++
      ") at image offset 0x" ++ hex r.loc)

/-- One round of the loop: read the entry, apply it. -/
def relocStep (host : Host) (d : List UInt8) (syms : List (Symbol w)) (st : LinkState w)
    (site : Section w × BitVec w × Nat) : Except Err (LinkState w) := do
  let r ← readReloc d site
  applyReloc host syms st r

def relocLoop (host : Host) (d : List UInt8) (syms : List (Symbol w))
    (sites : List (Section w × BitVec w × Nat)) (m : Image w) : Except Err (LinkState w) :=
  sites.foldlM (relocStep host d syms) ⟨m, fun _ => none⟩

/-! ## 5. Entry point and output -/

/-- `"_start"`. -/
def startName : List UInt8 := [0x5f, 0x73, 0x74, 0x61, 0x72, 0x74]

/-- The last symbol called `_start` that has an address, offset 0 otherwise. -/
def entryPoint (syms : List (Symbol w)) : BitVec w :=
  (syms.foldl (fun e s => if s.name = startName ∧ s.addr.isSome then s.addr else e)
    none).getD 0

/-- `string.char(table.unpack(image, k, last))`. -/
def unpack (m : Image w) (k last : BitVec w) : Except Err (List UInt8) :=
  (List.range (last.toInt - k.toInt + 1).toNat).mapM fun i =>
    match m (k + BitVec.ofNat w i) with
    | some b => .ok b
    | none => .error .nilValue

/-- The chunk that starts at key `k`: 200 bytes, or what is left. -/
def part (m : Image w) (imageLen k : BitVec w) : Except Err (List UInt8) :=
  let last := k + 199
  unpack m k (if imageLen.slt last then imageLen else last)

/-- `for k = 1, image_len, 200`: the chunks in order, then `table.concat`. -/
def blob (m : Image w) (imageLen : BitVec w) : Except Err (List UInt8) := do
  let parts ← (List.range ((imageLen.toInt + 199) / 200).toNat).mapM fun j =>
    part m imageLen (1 + 200 * BitVec.ofNat w j)
  pure parts.flatten

def header (imageLen entry stack : BitVec w) : List UInt8 :=
  let imageEnd := BitVec.ofNat w flatHdrSize + imageLen
  flatMagic
    ++ be32 (BitVec.ofNat w flatVersion)
    ++ be32 (BitVec.ofNat w flatHdrSize + entry)
    ++ be32 imageEnd -- data_start: data is empty...
    ++ be32 imageEnd -- data_end
    ++ be32 imageEnd -- bss_end: ...and so is bss
    ++ be32 stack
    ++ be32 imageEnd -- reloc_start, of an empty table
    ++ be32 (0 : BitVec w) -- reloc_count
    ++ be32 (BitVec.ofNat w flatFlagRam)
    ++ be32 (0 : BitVec w) -- build_date
    ++ (List.replicate 5 (be32 (0 : BitVec w))).flatten

/-- Everything the script has worked out by the time it applies relocations. -/
structure Obj (w : Nat) where
  sec : List (Section w)
  lay : Layout w
  image : Image w
  syms : List (Symbol w)

/-- From the bytes of the object file to the relocation loop. -/
def load (host : Host) (d : List UInt8) : Except Err (Obj w) := do
  let d ← readAll w d
  let e ← readHeader host d
  let sec ← readSections d e
  dieIf (storedEnd sec = 0) s!"{host.obj} has no allocatable content"
  let m ← blitAll host sec (layout sec)
  let syms ← readSymbols host d sec (layout sec)
  pure ⟨sec, layout sec, m, syms⟩

/-- The object file, linked; `Except.ok` is the bytes written to OUTPUT. -/
def mkflt (w : Nat) (host : Host) (stack : BitVec w) (d : List UInt8) : Except Err (List UInt8) := do
  dieIf (stack.slt (BitVec.ofNat w 1024))
    ("stack size " ++ dec stack ++ " is below the 1024-byte floor")
  let obj ← load (w := w) host d
  let st ← relocLoop host d obj.syms (relocSites obj.sec obj.lay) obj.image
  let body ← blob st.image obj.lay.imageLen
  let head := header obj.lay.imageLen (entryPoint obj.syms) stack
  dieIf (head.length ≠ flatHdrSize)
    ("built a " ++ toString head.length ++ "-byte header, expected " ++ toString flatHdrSize)
  dieIf (host.canWrite = false) ("cannot write " ++ host.out)
  pure (head ++ body)

end P4Linux.Mkflt
