import Mathlib.Data.List.Sort
import P4Linux.Lib.Crc32
import P4Linux.Lib.Outcome

/-!
# flashmap.py

`bootloader/flashmap.py` on the list that `parse` made of `partitions.csv`. Integers are Python's; a
name is its encoding.

* `Error` -- what an error's message says;
* `check`, `cmdBinary`, `cmdCrc`, `cmdRegion` -- the commands;
* `check_ok`, `entry_ok`, `cmdCrc_ok` -- what a command that came through has checked and computed;
* `padLoop_eq` -- the CRC over the padding in chunks is the CRC over all of it;
* `LastNamed`, `lookup_eq_some` -- of two partitions of one name, the later one is looked up.
-/

namespace P4Linux.Flashmap

/-- `(name, type, subtype, offset, size)`. -/
structure Part where
  name : List UInt8
  ptype : Int
  psub : Int
  off : Int
  size : Int
  deriving DecidableEq, Repr

inductive Error where
  | overlapsTable (name : List UInt8) (off : Int)
  | unaligned (name : List UInt8) (off : Int)
  | notSectors (name : List UInt8) (size : Int)
  | overlaps (a b : Part)
  | longLabel (name : List UInt8)
  /-- `struct.error`: a number that its field does not hold -/
  | pack (p : Part)
  | noPartition (name : List UInt8)
  | tooLarge (length : Nat) (p : Part)
  /-- `ZeroDivisionError` -/
  | zeroDivision
  deriving DecidableEq, Repr

/-! ## 1. `check` -/

def checkPart (p : Part) : Except Error Unit :=
  if p.off < 0x9000 then .error (.overlapsTable p.name p.off)
  else if p.off % 0x1000 ≠ 0 then .error (.unaligned p.name p.off)
  else if p.size % 0x1000 ≠ 0 then .error (.notSectors p.name p.size)
  else .ok ()

/-- The loop over `zip(ordered, ordered[1:])`. -/
def checkOrdered : List Part → Except Error Unit
  | a :: b :: rest => if b.off < a.off + a.size then .error (.overlaps a b) else checkOrdered (b :: rest)
  | _ => .ok ()

def check (parts : List Part) : Except Error Unit := do
  parts.forM checkPart
  checkOrdered (parts.insertionSort fun a b => a.off ≤ b.off)

/-! ## 2. `cmd_binary` -/

/-- `MAGIC`. -/
def magic : List UInt8 := [0xAA, 0x50]

/-- `MAGIC_MD5`. -/
def magicMd5 : List UInt8 := [0xEB, 0xEB]

/-- A number that `struct.pack` puts into `n` bytes. -/
def packs (n : Nat) (k : Int) : Prop := 0 ≤ k ∧ k < 256 ^ n

instance (n : Nat) (k : Int) : Decidable (packs n k) := inferInstanceAs (Decidable (_ ∧ _))

/-- `label.ljust(16, b"\x00")`. -/
def ljust (label : List UInt8) : List UInt8 := label ++ List.replicate (16 - label.length) 0

/-- One entry: `struct.pack(ENTRY_FMT, …)`. -/
def entry (p : Part) : Except Error (List UInt8) :=
  if 16 < p.name.length then .error (.longLabel p.name)
  else if packs 1 p.ptype ∧ packs 1 p.psub ∧ packs 4 p.off ∧ packs 4 p.size then
    .ok (magic ++ leBytes 1 p.ptype.toNat ++ leBytes 1 p.psub.toNat ++ leBytes 4 p.off.toNat ++
      leBytes 4 p.size.toNat ++ ljust p.name ++ leBytes 4 0)
  else .error (.pack p)

/-- The file that `cmd_binary` writes; `md5` is `hashlib.md5(…).digest()`. -/
def cmdBinary (md5 : List UInt8 → Vector UInt8 16) (parts : List Part) : Except Error (List UInt8) := do
  check parts
  let entries ← parts.mapM entry
  let blob := entries.flatten
  pure (blob ++ (magicMd5 ++ List.replicate 14 0xFF ++ (md5 blob).toList))

/-! ## 3. `cmd_crc` and `cmd_region` -/

/-- `{p[0]: p for p in parts}`, at `name`: the last one of that name. -/
def lookup (parts : List Part) (name : List UInt8) : Option Part :=
  parts.foldl (fun found p => if p.name = name then some p else found) none

/-- `while pad`: the chunk has `chunk` bytes of 0xFF. -/
def padLoop (chunk : Nat) : Nat → Nat → BitVec 32 → BitVec 32
  | 0, _, crc => crc
  | rounds + 1, pad, crc =>
    if pad = 0 then crc
    else
      let n := min pad chunk
      padLoop chunk rounds (pad - n) (crc32 crc ((List.replicate chunk 0xFF).take n))

/-- What `cmd_crc` prints. -/
structure CrcReport where
  name : List UInt8
  off : Int
  size : Int
  payload : Nat
  percent : Int
  pad : Int
  crc : BitVec 32
  deriving DecidableEq, Repr

def cmdCrc (parts : List Part) (name : List UInt8) (data : List UInt8) : Except Error CrcReport :=
  match lookup parts name with
  | none => .error (.noPartition name)
  | some p =>
    if p.size < data.length then .error (.tooLarge data.length p)
    else
      let crc := crc32 0 data
      let pad := (p.size - data.length).toNat
      let crc := padLoop (min pad (1 <<< 16)) pad pad crc
      if p.size = 0 then .error .zeroDivision -- 100 * len(data) // size
      else .ok ⟨name, p.off, p.size, data.length, 100 * data.length / p.size, p.size - data.length, crc⟩

def cmdRegion (parts : List Part) (name : List UInt8) : Except Error (Int × Int) :=
  match lookup parts name with
  | none => .error (.noPartition name)
  | some p => .ok (p.off, p.size)

/-! ## 4. What they check and compute -/

theorem check_ok {parts : List Part} : check parts = .ok () ↔ (∀ p ∈ parts, checkPart p = .ok ()) ∧
    checkOrdered (parts.insertionSort fun a b => a.off ≤ b.off) = .ok () := by
  unfold check
  rw [bind_ok]
  constructor
  · rintro ⟨_, h, ho⟩
    exact ⟨forM_ok.mp h, ho⟩
  · rintro ⟨h, ho⟩
    exact ⟨(), forM_ok.mpr h, ho⟩

theorem checkPart_ok {p : Part} : checkPart p = .ok () ↔
    0x9000 ≤ p.off ∧ p.off % 0x1000 = 0 ∧ p.size % 0x1000 = 0 := by
  unfold checkPart
  constructor
  · intro h
    split at h
    · cases h
    · split at h
      · cases h
      · split at h
        · cases h
        · exact ⟨by omega, by omega, by omega⟩
  · rintro ⟨h1, h2, h3⟩
    rw [if_neg (by omega), if_neg (by omega), if_neg (by omega)]

theorem entry_ok {p : Part} {e : List UInt8} : entry p = .ok e ↔ p.name.length ≤ 16 ∧
    (packs 1 p.ptype ∧ packs 1 p.psub ∧ packs 4 p.off ∧ packs 4 p.size) ∧
    magic ++ leBytes 1 p.ptype.toNat ++ leBytes 1 p.psub.toNat ++ leBytes 4 p.off.toNat ++
      leBytes 4 p.size.toNat ++ ljust p.name ++ leBytes 4 0 = e := by
  unfold entry
  constructor
  · intro h
    split at h
    · cases h
    · split at h
      · exact ⟨by omega, by assumption, Except.ok.inj h⟩
      · cases h
  · rintro ⟨hlen, hpacks, rfl⟩
    rw [if_neg (by omega), if_pos hpacks]

/-- The numbers of a partition of a table that was written fit their fields. -/
theorem packs_of_binary {md5 : List UInt8 → Vector UInt8 16} {parts : List Part} {blob : List UInt8}
    (hblob : cmdBinary md5 parts = .ok blob) {p : Part} (hp : p ∈ parts) :
    packs 1 p.ptype ∧ packs 1 p.psub ∧ packs 4 p.off ∧ packs 4 p.size := by
  unfold cmdBinary at hblob
  simp only [bind_ok, pure_ok] at hblob
  obtain ⟨_, -, entries, hentries, -⟩ := hblob
  obtain ⟨i, hi, rfl⟩ := List.mem_iff_getElem.mp hp
  have hlen := (mapM_ok.mp hentries).length_eq
  have he := (mapM_ok.mp hentries).get hi (hlen ▸ hi)
  exact (entry_ok.mp he).2.1

/-- **The padding loop** is one CRC over the padding. -/
theorem padLoop_eq {chunk rounds pad : Nat} (crc : BitVec 32) (hr : pad ≤ rounds)
    (hc : pad = 0 ∨ 0 < chunk) : padLoop chunk rounds pad crc = crc32 crc (List.replicate pad 0xFF) := by
  induction rounds generalizing pad crc with
  | zero =>
    obtain rfl : pad = 0 := Nat.le_zero.mp hr
    rw [padLoop, List.replicate_zero, crc32_nil]
  | succ rounds ih =>
    unfold padLoop
    split
    · rename_i h0
      rw [h0, List.replicate_zero, crc32_nil]
    · rename_i h0
      dsimp only
      rw [ih _ (by omega) (by omega), List.take_replicate, ← crc32_append, List.replicate_append_replicate]
      congr 2
      omega

/-- `cmd_crc` reports the CRC of the payload and its padding, on a partition of any size but zero. -/
theorem cmdCrc_ok {parts : List Part} {name data : List UInt8} {report : CrcReport} :
    cmdCrc parts name data = .ok report ↔ ∃ p, lookup parts name = some p ∧ data.length ≤ p.size ∧
      p.size ≠ 0 ∧ report = ⟨name, p.off, p.size, data.length, 100 * data.length / p.size,
        p.size - data.length,
        crc32 0 (data ++ List.replicate (p.size - data.length).toNat 0xFF)⟩ := by
  unfold cmdCrc
  cases lookup parts name with
  | none => simp
  | some p =>
    have hpad : ∀ pad, padLoop (min pad (1 <<< 16)) pad pad (crc32 0 data) =
        crc32 0 (data ++ List.replicate pad 0xFF) := by
      intro pad
      rw [padLoop_eq _ (Nat.le_refl _) (by omega), crc32_append]
    dsimp only
    rw [hpad]
    constructor
    · intro h
      split at h
      · cases h
      · split at h
        · cases h
        · exact ⟨p, rfl, by omega, by assumption, (Except.ok.inj h).symm⟩
    · rintro ⟨q, hq, hle, hne, rfl⟩
      obtain rfl := Option.some.inj hq
      rw [if_neg (by omega), if_neg hne]

/-- `q` is the last partition called `name`. -/
def LastNamed (parts : List Part) (name : List UInt8) (q : Part) : Prop :=
  ∃ before after, parts = before ++ q :: after ∧ q.name = name ∧ ∀ r ∈ after, r.name ≠ name

theorem foldl_lookup (parts : List Part) (name : List UInt8) (found : Option Part) :
    parts.foldl (fun found p => if p.name = name then some p else found) found =
      (lookup parts name).or found := by
  induction parts generalizing found with
  | nil => rfl
  | cons p parts ih =>
    unfold lookup
    rw [List.foldl_cons, List.foldl_cons, ih, ih (if p.name = name then some p else none), Option.or_assoc]
    split
    · rfl
    · rfl

theorem lookup_append (before after : List Part) (name : List UInt8) :
    lookup (before ++ after) name = (lookup after name).or (lookup before name) := by
  rw [lookup, List.foldl_append, foldl_lookup]
  rfl

theorem lookup_eq_none {parts : List Part} {name : List UInt8} (h : ∀ r ∈ parts, r.name ≠ name) :
    lookup parts name = none := by
  induction parts with
  | nil => rfl
  | cons p parts ih =>
    have hp := h p List.mem_cons_self
    show lookup ([p] ++ parts) name = none
    rw [lookup_append, ih fun r hr => h r (List.mem_cons_of_mem _ hr)]
    show (if p.name = name then some p else none) = none
    rw [if_neg hp]

theorem lookup_eq_some {parts : List Part} {name : List UInt8} {q : Part} (h : LastNamed parts name q) :
    lookup parts name = some q := by
  obtain ⟨before, after, rfl, hq, hafter⟩ := h
  rw [lookup_append, show q :: after = [q] ++ after from rfl, lookup_append, lookup_eq_none hafter]
  show ((if q.name = name then some q else none : Option Part)).or _ = some q
  rw [if_pos hq]
  rfl

/-- A name that is in the list has a last partition. -/
theorem exists_lastNamed {parts : List Part} {name : List UInt8} (h : ∃ p ∈ parts, p.name = name) :
    ∃ q, LastNamed parts name q := by
  induction parts with
  | nil =>
    obtain ⟨p, hp, -⟩ := h
    cases hp
  | cons r parts ih =>
    by_cases hin : ∃ q ∈ parts, q.name = name
    · obtain ⟨q, before, after, rfl, hq⟩ := ih hin
      exact ⟨q, r :: before, after, rfl, hq⟩
    · obtain ⟨p, hp, hname⟩ := h
      rcases List.mem_cons.mp hp with rfl | hp
      · exact ⟨p, [], parts, rfl, hname, fun r hr he => hin ⟨r, hr, he⟩⟩
      · exact absurd ⟨p, hp, hname⟩ hin

end P4Linux.Flashmap
