import Mathlib.Data.List.Basic
import P4Linux.Lib.Outcome

/-!
# Paths and file trees of `src/bootloader/vendor/sync.py`

What the script asks the system: `os.path` on strings, the files it can read, and the tree it
copies into.

* `join`, `dirname`, `basename` -- `os.path` as posixpath has it, on the bytes of a path;
* `Tree` -- the path strings that name a file, each with the file's bytes;
* `Dest`, `makedirs`, `copy2` -- the tree that is written, by where a path leads;
* `quotedIncludes` -- `INCLUDE_RE.finditer`.
-/

namespace P4Linux.Vendor

/-- A path as the bytes of its string. -/
abbrev Path := List UInt8

instance : LawfulBEq Path := inferInstance

def path (s : String) : Path := s.toUTF8.data.toList

/-! ## 1. `os.path` -/

/-- The byte `/`. -/
def sep : UInt8 := 47

def isabs (p : Path) : Bool := p.head? == some sep

/-- `os.path.join(a, b)`: an absolute `b` wins. -/
def join (a b : Path) : Path :=
  if isabs b then b
  else if a = [] ∨ a.getLast? = some sep then a ++ b
  else a ++ sep :: b

/-- The last part of the path, behind its last `/`. -/
def basename (p : Path) : Path := (p.reverse.takeWhile (· != sep)).reverse

/-- `os.path.dirname(p)`: without slashes at its end, unless it is nothing but slashes. -/
def dirname (p : Path) : Path :=
  let head := (p.reverse.dropWhile (· != sep)).reverse
  if head.all (· == sep) then head else (head.reverse.dropWhile (· == sep)).reverse

/-! ## 2. The files that are read -/

/-- The files of the checkout: each path string that names one, with its bytes. A file has as many
strings as there are ways to spell it through `..`, up to the length the system opens. -/
structure Tree where
  entries : List (Path × List UInt8)

/-- What `open(p, "rb").read()` gives; `os.path.isfile(p)` says whether there is something. -/
def Tree.file (t : Tree) (p : Path) : Option (List UInt8) := t.entries.lookup p

def Tree.paths (t : Tree) : List Path := t.entries.map Prod.fst

theorem Tree.mem_paths {t : Tree} {p : Path} (h : (t.file p).isSome) : p ∈ t.paths := by
  obtain ⟨body, hbody⟩ := Option.isSome_iff_exists.mp h
  obtain ⟨l, r, hsplit, -⟩ := List.lookup_eq_some_iff.mp hbody
  refine List.mem_map.mpr ⟨(p, body), ?_, rfl⟩
  rw [hsplit]
  exact List.mem_append_right _ List.mem_cons_self

/-! ## 3. The tree that is written -/

/-- The names that lead from the root to a place, the last one first. -/
abbrev Location := List Path

inductive Entry where
  | absent
  | dir
  | file (body : List UInt8)
  deriving DecidableEq

/-- What is at each place. -/
abbrev Dest := Location → Entry

/-- One name of a path, from where the names before it led. -/
def enter (l : Location) (name : Path) : Location :=
  if name = [] ∨ name = path "." then l
  else if name = path ".." then l.tail
  else name :: l

/-- Where an absolute path leads. -/
def location (p : Path) : Location := (p.splitOn sep).foldl enter []

/-- Where each of its names leads. -/
def steps (p : Path) : List Location := ((p.splitOn sep).scanl enter []).tail

/-- What ends the script with a traceback. -/
inductive Raised where
  | notFound
  | notADirectory
  | isADirectory
  | sameFile
  | unicodeDecode
  deriving DecidableEq, Repr

/-- `os.mkdir`, content with a directory that is there. -/
def mkdir (out : Dest) (l : Location) : Except Raised Dest :=
  match out l with
  | .file _ => .error .notADirectory
  | _ => .ok (Function.update out l .dir)

/-- `os.makedirs(p, exist_ok=True)`. -/
def makedirs (out : Dest) (p : Path) : Except Raised Dest := (steps p).foldlM mkdir out

/-- Where `shutil.copy2(src, dst)` writes: into `dst` where that is a directory. -/
def landing (out : Dest) (src dst : Path) : Location :=
  match out (location dst) with
  | .dir => enter (location dst) (basename src)
  | _ => location dst

/-- `shutil.copy2(src, dst)`. -/
def copy2 (t : Tree) (src dst : Path) (out : Dest) : Except Raised Dest :=
  match t.file src with
  | none => .error .notFound
  | some body =>
    match out (landing out src dst) with
    | .dir => .error .isADirectory
    | _ => .ok (Function.update out (landing out src dst) (.file body))

/-- The directories made, everything else as it was. -/
def Dest.withDirs (out : Dest) (ls : List Location) : Dest := fun l => if l ∈ ls then .dir else out l

theorem withDirs_of_mem {out : Dest} {ls : List Location} {l : Location} (h : l ∈ ls) :
    out.withDirs ls l = .dir := if_pos h

theorem withDirs_of_notMem {out : Dest} {ls : List Location} {l : Location} (h : l ∉ ls) :
    out.withDirs ls l = out l := if_neg h

theorem mkdir_ok {out out' : Dest} {l : Location} :
    mkdir out l = .ok out' ↔ (∀ body, out l ≠ .file body) ∧ out' = Function.update out l .dir := by
  unfold mkdir
  cases hl : out l with
  | file body => simp
  | absent => simp [eq_comm]
  | dir => simp [eq_comm]

/-- `makedirs` comes through unless a file stands on the way, and makes nothing but directories. -/
theorem makedirs_ok {out out' : Dest} {p : Path} :
    makedirs out p = .ok out' ↔
      (∀ l ∈ steps p, ∀ body, out l ≠ .file body) ∧ out' = out.withDirs (steps p) := by
  unfold makedirs
  generalize steps p = ls
  induction ls generalizing out with
  | nil =>
    rw [foldlM_nil_ok]
    constructor
    · rintro rfl
      exact ⟨fun _ h => absurd h List.not_mem_nil, funext fun l => (withDirs_of_notMem List.not_mem_nil).symm⟩
    · rintro ⟨-, rfl⟩
      exact funext fun l => (withDirs_of_notMem List.not_mem_nil).symm
  | cons a ls ih =>
    have hlast : Dest.withDirs (Function.update out a .dir) ls = out.withDirs (a :: ls) := by
      funext l
      by_cases hl : l ∈ ls
      · rw [withDirs_of_mem hl, withDirs_of_mem (List.mem_cons_of_mem a hl)]
      · rw [withDirs_of_notMem hl]
        by_cases ha : l = a
        · rw [ha, Function.update_self, withDirs_of_mem List.mem_cons_self]
        · rw [Function.update_of_ne ha, withDirs_of_notMem]
          simp [ha, hl]
    rw [foldlM_cons_ok]
    constructor
    · rintro ⟨mid, hmid, hrest⟩
      obtain ⟨ha, rfl⟩ := mkdir_ok.mp hmid
      obtain ⟨hls, rfl⟩ := ih.mp hrest
      refine ⟨fun l hl body hbody => ?_, hlast⟩
      by_cases hla : l = a
      · exact ha body (hla ▸ hbody)
      · refine hls l ((List.mem_cons.mp hl).resolve_left hla) body ?_
        rw [Function.update_of_ne hla, hbody]
    · rintro ⟨hls, rfl⟩
      refine ⟨_, mkdir_ok.mpr ⟨hls a List.mem_cons_self, rfl⟩, ih.mpr ⟨fun l hl body hbody => ?_, hlast.symm⟩⟩
      by_cases hla : l = a
      · rw [hla, Function.update_self] at hbody
        cases hbody
      · rw [Function.update_of_ne hla] at hbody
        exact hls l (List.mem_cons_of_mem a hl) body hbody

/-- `copy2` writes one file, never over a directory. -/
theorem copy2_ok {t : Tree} {src dst : Path} {out out' : Dest} :
    copy2 t src dst out = .ok out' ↔ ∃ body, t.file src = some body ∧ out (landing out src dst) ≠ .dir ∧
      out' = Function.update out (landing out src dst) (.file body) := by
  unfold copy2
  cases hsrc : t.file src with
  | none => simp
  | some body =>
    cases hl : out (landing out src dst) with
    | dir => simp
    | absent => simp [eq_comm]
    | file old => simp [eq_comm]

theorem landing_of_not_dir {out : Dest} {src dst : Path} (h : out (location dst) ≠ .dir) :
    landing out src dst = location dst := by
  unfold landing
  split
  · exact absurd ‹_› h
  · rfl

/-! ## 4. `INCLUDE_RE` -/

/-- `\s` on bytes. -/
def space (c : UInt8) : Bool := c == 32 || (9 ≤ c && c ≤ 13)

/-- `\s*#\s*include\s+"([^"]+)"` from here: the name, and what is behind the match. -/
def matchInclude (s : List UInt8) : Option (Path × List UInt8) :=
  match s.dropWhile space with
  | 35 :: s =>
    let s := s.dropWhile space
    if (path "include").isPrefixOf s then
      let s := s.drop 7
      match s.dropWhile space with
      | 34 :: quoted =>
        let name := quoted.takeWhile (· != 34)
        if s.head?.any space ∧ name ≠ [] then
          match quoted.dropWhile (· != 34) with
          | _ :: rest => some (name, rest)
          | [] => none
        else none
      | _ => none
    else none
  | _ => none

/-- The search of `finditer`: `^` holds at the start and behind a newline, and it goes on behind
each match. -/
def scan : Nat → Bool → List UInt8 → List Path
  | _, _, [] => []
  | skip + 1, _, c :: s => scan skip (c == 10) s
  | 0, false, c :: s => scan 0 (c == 10) s
  | 0, true, c :: s =>
    match matchInclude (c :: s) with
    | none => scan 0 (c == 10) s
    | some (name, rest) => name :: scan (s.length - rest.length) (c == 10) s

/-- The names of all `#include "..."` lines, in their order. -/
def quotedIncludes (body : List UInt8) : List Path := scan 0 true body

example : quotedIncludes (path " # include\t\"a/b.h\"\n#include <c.h>\n\n#include \"d.h\" #include \"e.h\"\n") =
    [path "a/b.h", path "d.h"] := by decide +kernel

end P4Linux.Vendor
