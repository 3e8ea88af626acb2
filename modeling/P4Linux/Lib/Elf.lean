import Mathlib.Data.Nat.Notation

/-!
# Small ELF32 relocatable objects

* `sym`, `rela` -- one entry of a symbol table and of a RELA section;
* `object` -- the bytes of a little-endian RISC-V `ET_REL` file with a given list of sections: the ELF
  header, the sections' contents one after the other, `.shstrtab`, and the section header table (a null
  header, the given sections, `.shstrtab`);
* `program` -- the sections of a program with one text section, and more after them.

Concrete objects are built with it.
-/

namespace P4Linux.Elf

def le16 (n : Nat) : List UInt8 := [UInt8.ofNat n, UInt8.ofNat (n / 0x100)]

def le32 (n : Nat) : List UInt8 := le16 n ++ le16 (n / 0x10000)

/-- A section; `size` is `data.length` unless the section has no contents in the file. -/
structure Sec where
  name : List UInt8
  type : Nat
  flags : Nat
  data : List UInt8
  size : Nat := data.length
  link : Nat := 0
  info : Nat := 0
  align : Nat := 1

/-- One entry of a symbol table. -/
def sym (value shndx : Nat) : List UInt8 := le32 0 ++ le32 value ++ le32 0 ++ le16 0 ++ le16 shndx

/-- One `Elf32_Rela`. -/
def rela (off sym type addend : Nat) : List UInt8 := le32 off ++ le32 (sym * 0x100 + type) ++ le32 addend

/-- `.shstrtab`: a NUL, then every name with its NUL. -/
def shstrtab (secs : List Sec) : List UInt8 := 0 :: secs.flatMap fun s => s.name ++ [0]

def headers : List Sec → Nat → Nat → List UInt8
  | [], _, _ => []
  | s :: rest, name, off =>
    le32 name ++ le32 s.type ++ le32 s.flags ++ le32 0 ++ le32 off ++ le32 s.size ++ le32 s.link ++
      le32 s.info ++ le32 s.align ++ le32 0 ++ headers rest (name + s.name.length + 1) (off + s.data.length)

/-- The object file. -/
def object (secs : List Sec) : List UInt8 :=
  let all := secs ++ [⟨[], 3, 0, shstrtab secs, (shstrtab secs).length, 0, 0, 1⟩]
  let body := all.flatMap (·.data)
  [127, 69, 76, 70, 1, 1, 1, 0, 0, 0, 0, 0, 0, 0, 0, 0] ++ le16 1 ++ le16 243 ++ le32 1 ++ le32 0 ++
    le32 0 ++ le32 (52 + body.length) ++ le32 0 ++ le16 52 ++ le16 0 ++ le16 0 ++ le16 40 ++
    le16 (all.length + 1) ++ le16 all.length ++ body ++ List.replicate 40 0 ++ headers all 1 52

/-- `.text`. -/
def textName : List UInt8 := [0x2e, 0x74, 0x65, 0x78, 0x74]

/-- The sections of a one-section program: `.text` (1) with its relocations (2), the symbol table
    (3) and its empty string table (4), then whatever else there is (from 5 on). -/
def program (text : List UInt8) (relas syms : List (List UInt8)) (more : List Sec) : List Sec :=
  [{ name := textName, type := 1, flags := 6, data := text, align := 4 },
    { name := [0x72], type := 4, flags := 0, data := relas.flatten, link := 3, info := 1 },
    { name := [0x79], type := 2, flags := 0, data := syms.flatten, link := 4 },
    { name := [0x74], type := 3, flags := 0, data := [0] }] ++ more

/-- The contents of the section of a given name. -/
def contents (secs : List Sec) (name : List UInt8) : Option (List UInt8) :=
  (secs.find? (·.name == name)).map (·.data)

end P4Linux.Elf
