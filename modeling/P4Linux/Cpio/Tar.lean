import Mathlib.Data.Int.Bitwise
import P4Linux.Cpio.Newc
import P4Linux.Lib.Outcome

/-!
# tar2cpio.py: `main`

The conversion, from the members that `tarfile` finds in a tar to the bytes of the cpio. A `str` is the list of
the bytes it was decoded from, and so is what `encode` makes of it, if they are UTF-8. What is printed is
left out.

* `TarInfo`, `Tar`, `extractfile` -- what `tarfile` finds, and the bytes it gives for a name;
* `member`, `members` -- the entries made of one member, and of all, in order;
* `injected` -- `init` and the device nodes, where the tar has none of the name;
* `written`, `main` -- the entries of the cpio, and its bytes;
* `member_name` -- a member makes at most one entry, under the name it is given.
-/

namespace P4Linux.Cpio

/-! ## 1. Members -/

inductive Kind where
  | dir
  | sym (linkname : List UInt8)
  | reg (data : List UInt8)
  | chr (devmajor devminor : Int)
  | blk (devmajor devminor : Int)
  | fifo
  | lnk (linkname : List UInt8)
  /-- a type that `tarfile` does not know -/
  | other (data : List UInt8)
  deriving DecidableEq, Repr

/-- A member as `tarfile` presents it; `mtime` is `int(m.mtime)`. -/
structure TarInfo where
  name : List UInt8
  mode : Int
  uid : Int
  gid : Int
  mtime : Int
  kind : Kind
  deriving DecidableEq, Repr

inductive PyError where
  | unicodeEncodeError
  | keyError
  | other
  deriving DecidableEq, Repr

structure Tar where
  members : List TarInfo
  /-- `extractfile` of the target that `tarfile` finds for a link -/
  follow : TarInfo → Except PyError (Option (List UInt8))

def isCont (b : UInt8) : Bool := 128 ≤ b && b ≤ 191

/-- Well-formed UTF-8. -/
def utf8 : List UInt8 → Bool
  | [] => true
  | a :: b :: c :: d :: l =>
    if a < 128 then utf8 (b :: c :: d :: l)
    else if 194 ≤ a && a ≤ 223 then isCont b && utf8 (c :: d :: l)
    else if 224 ≤ a && a ≤ 239 then
      isCont b && isCont c && !(a = 224 && b < 160) && !(a = 237 && 160 ≤ b) && utf8 (d :: l)
    else 240 ≤ a && a ≤ 244 && isCont b && isCont c && isCont d && !(a = 240 && b < 144) &&
      !(a = 244 && 144 ≤ b) && utf8 l
  | [a, b, c] =>
    if a < 128 then utf8 [b, c]
    else if 194 ≤ a && a ≤ 223 then isCont b && utf8 [c]
    else 224 ≤ a && a ≤ 239 && isCont b && isCont c && !(a = 224 && b < 160) && !(a = 237 && 160 ≤ b)
  | [a, b] => if a < 128 then utf8 [b] else 194 ≤ a && a ≤ 223 && isCont b
  | [a] => a < 128

/-- `s.encode()`. -/
def encode (s : List UInt8) : Except PyError (List UInt8) :=
  if utf8 s then .ok s else .error .unicodeEncodeError

/-- `s.lstrip("./")`. -/
def lstrip (s : List UInt8) : List UInt8 := s.dropWhile fun b => b = 46 || b = 47

/-- `s.rstrip("/")`. -/
def rstrip (s : List UInt8) : List UInt8 := (s.reverse.dropWhile fun b => b = 47).reverse

/-- `tf.extractfile(name)`, read to its end: the last member of that very name. -/
def extractfile (t : Tar) (name : List UInt8) : Except PyError (Option (List UInt8)) :=
  match t.members.reverse.find? fun m => m.name = rstrip name with
  | none => .error .keyError
  | some m => match m.kind with
    | .reg data => .ok (some data)
    | .other data => .ok (some data)
    | .sym _ => t.follow m
    | .lnk _ => t.follow m
    | _ => .ok none

/-! ## 2. Records -/

def sIfdir : Int := 0o40000
def sIfreg : Int := 0o100000
def sIflnk : Int := 0o120000
def sIfchr : Int := 0o20000
def sIfblk : Int := 0o60000
def sIfifo : Int := 0o10000

/-- `"etc/fstab"`. -/
def fstab : List UInt8 := [101, 116, 99, 47, 102, 115, 116, 97, 98]

/-- `b"devtmpfs"`. -/
def devtmpfs : List UInt8 := [100, 101, 118, 116, 109, 112, 102, 115]

/-- `b"devtmpfs\t/dev\t\tdevtmpfs\tdefaults\t0\t0\n"`. -/
def devtmpfsLine : List UInt8 :=
  [100, 101, 118, 116, 109, 112, 102, 115, 9, 47, 100, 101, 118, 9, 9, 100, 101, 118, 116, 109, 112, 102, 115, 9,
    100, 101, 102, 97, 117, 108, 116, 115, 9, 48, 9, 48, 10]

/-- The data of the file `name`, with what is appended to `/etc/fstab`. -/
def withDevtmpfs (name data : List UInt8) : List UInt8 :=
  if name = fstab ∧ (C.find devtmpfs data).isNone then data ++ devtmpfsLine else data

/-- What `main` writes for a member that it does not skip. -/
def member (t : Tar) (m : TarInfo) (name : List UInt8) : Except PyError (List Entry) :=
  match m.kind with
  | .dir => do
    let nameB ← encode name
    pure [⟨nameB, Int.lor sIfdir m.mode, m.uid, m.gid, 2, m.mtime, [], 0, 0⟩]
  | .sym linkname => do
    let data ← encode linkname
    let nameB ← encode name
    pure [⟨nameB, Int.lor sIflnk 0o777, m.uid, m.gid, 1, m.mtime, data, 0, 0⟩]
  | .reg data => do
    let nameB ← encode name
    pure [⟨nameB, Int.lor sIfreg m.mode, m.uid, m.gid, 1, m.mtime, withDevtmpfs name data, 0, 0⟩]
  | .chr devmajor devminor => do
    let nameB ← encode name
    pure [⟨nameB, Int.lor sIfchr m.mode, m.uid, m.gid, 1, m.mtime, [], devmajor, devminor⟩]
  | .blk devmajor devminor => do
    let nameB ← encode name
    pure [⟨nameB, Int.lor sIfblk m.mode, m.uid, m.gid, 1, m.mtime, [], devmajor, devminor⟩]
  | .fifo => do
    let nameB ← encode name
    pure [⟨nameB, Int.lor sIfifo m.mode, m.uid, m.gid, 1, m.mtime, [], 0, 0⟩]
  | .lnk linkname => do
    let src ← extractfile t linkname
    let nameB ← encode name
    pure [⟨nameB, Int.lor sIfreg m.mode, m.uid, m.gid, 1, m.mtime, src.getD [], 0, 0⟩]
  | .other _ => pure []

/-- `for m in tf`: what is written, and the names that were seen. -/
def members (t : Tar) : List (List UInt8) → List TarInfo → Except PyError (List Entry × List (List UInt8))
  | seen, [] => pure ([], seen)
  | seen, m :: ms =>
    let name := lstrip m.name
    if name = [] ∨ name ∈ seen then members t seen ms
    else do
      let es ← member t m name
      let (rest, seen) ← members t (name :: seen) ms
      pure (es ++ rest, seen)

/-- `"init"`. -/
def initName : List UInt8 := [105, 110, 105, 116]

/-- The symlink to `sbin/init`. -/
def initEntry : Entry :=
  ⟨initName, Int.lor sIflnk 0o777, 0, 0, 1, 0, [115, 98, 105, 110, 47, 105, 110, 105, 116], 0, 0⟩

/-- A row of `DEV_NODES`: the name after `dev/`. -/
def devNode (name : List UInt8) (mode rmaj rmin : Int) : Entry :=
  ⟨[100, 101, 118, 47] ++ name, Int.lor sIfchr mode, 0, 0, 1, 0, [], rmaj, rmin⟩

def devNodes : List Entry :=
  [devNode [99, 111, 110, 115, 111, 108, 101] 0o600 5 1,
    devNode [110, 117, 108, 108] 0o666 1 3,
    devNode [122, 101, 114, 111] 0o666 1 5,
    devNode [102, 117, 108, 108] 0o666 1 7,
    devNode [114, 97, 110, 100, 111, 109] 0o666 1 8,
    devNode [117, 114, 97, 110, 100, 111, 109] 0o666 1 9,
    devNode [116, 116, 121] 0o666 5 0,
    devNode [116, 116, 121, 83, 48] 0o620 4 64]

/-- What is injected: the nodes that no member has the name of. -/
def injected (seen : List (List UInt8)) : List Entry := (initEntry :: devNodes).filter fun e => e.name ∉ seen

/-- The records before the sentinel. -/
def written (t : Tar) : Except PyError (List Entry) := do
  let (es, seen) ← members t [] t.members
  pure (es ++ injected seen)

/-- `main`: the bytes of the cpio. -/
def main (t : Tar) : Except PyError (List UInt8) := do
  let es ← written t
  pure (archive es)

/-! ## 3. The loop -/

theorem encode_ok {s b : List UInt8} : encode s = .ok b ↔ utf8 s = true ∧ b = s := by
  unfold encode
  constructor
  · intro h
    split at h
    · rename_i hs
      exact ⟨hs, (Except.ok.inj h).symm⟩
    · cases h
  · intro htext
    obtain ⟨hs, rfl⟩ := htext
    exact if_pos hs

/-- A stripped name begins with neither of the two characters. -/
theorem lstrip_head {s t : List UInt8} {b : UInt8} (h : lstrip s = b :: t) : b ≠ 46 ∧ b ≠ 47 := by
  have hb := List.dropWhile_get_zero_not (p := fun b : UInt8 => (b = 46 || b = 47 : Bool)) s
  unfold lstrip at h
  rw [h] at hb
  have hno := hb (Nat.succ_pos _)
  rw [List.get_eq_getElem, List.getElem_cons_zero, Bool.or_eq_true, not_or, decide_eq_true_eq,
    decide_eq_true_eq] at hno
  exact hno

theorem lstrip_eq_self {s : List UInt8} (h : ∀ b t, s = b :: t → b ≠ 46 ∧ b ≠ 47) : lstrip s = s := by
  cases s with
  | nil => rfl
  | cons b t =>
    obtain ⟨h46, h47⟩ := h b t rfl
    exact List.dropWhile_cons_of_neg (by rw [decide_eq_false h46, decide_eq_false h47]; exact Bool.false_ne_true)

/-- A member is written under the name it was given, and once at most. -/
theorem member_name {t : Tar} {m : TarInfo} {name : List UInt8} {es : List Entry}
    (h : member t m name = .ok es) : es = [] ∨ ∃ e, es = [e] ∧ e.name = name := by
  have hone : ∀ e : List UInt8 → Entry, (∀ n, (e n).name = n) →
      (encode name >>= fun n => pure [e n]) = .ok es → es = [] ∨ ∃ e, es = [e] ∧ e.name = name := by
    intro e he h
    obtain ⟨n, hn, hes⟩ := bind_ok.mp h
    obtain ⟨-, rfl⟩ := encode_ok.mp hn
    exact .inr ⟨e n, (pure_ok.mp hes).symm, he n⟩
  unfold member at h
  split at h
  · exact hone _ (fun _ => rfl) h
  · obtain ⟨_, -, h⟩ := bind_ok.mp h
    exact hone _ (fun _ => rfl) h
  · exact hone _ (fun _ => rfl) h
  · exact hone _ (fun _ => rfl) h
  · exact hone _ (fun _ => rfl) h
  · exact hone _ (fun _ => rfl) h
  · obtain ⟨_, -, h⟩ := bind_ok.mp h
    exact hone _ (fun _ => rfl) h
  · exact .inl (pure_ok.mp h).symm

end P4Linux.Cpio
