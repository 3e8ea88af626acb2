import Mathlib.Data.List.Basic
import P4Linux.Lib.Hex

/-!
# tar2cpio.py: records

`entry` of `tools/tar2cpio.py`, and a reader of the newc format.

* `Encodable` -- the entries that the format has room for;
* `readRecord_entry` -- a record is read back, whatever follows it;
* `entry_aligned` -- and ends at a multiple of 4;
* `readNewc_archive` -- **an archive** is read back as the entries that were written;
* `readAll_encodable` -- and whatever is read has room in the format.
-/

namespace P4Linux.Cpio

open Hex

/-! ## 1. Writing -/

/-- `b"070701"`. -/
def magic : List UInt8 := [48, 55, 48, 55, 48, 49]

/-- The arguments of `entry`; the name is encoded. -/
structure Entry where
  name : List UInt8
  mode : Int
  uid : Int
  gid : Int
  nlink : Int
  mtime : Int
  data : List UInt8
  rmaj : Int
  rmin : Int
  deriving DecidableEq, Repr

def Entry.fields (e : Entry) : List Int :=
  [0, e.mode, e.uid, e.gid, e.nlink, e.mtime, e.data.length, 0, 0, e.rmaj, e.rmin, (e.name ++ [0]).length, 0]

/-- `-n % 4`. -/
def pad4 (n : Nat) : Nat := (-(n : Int) % 4).toNat

/-- `b"\0" * n`. -/
def zeros (n : Nat) : List UInt8 := List.replicate n 0

def entry (e : Entry) : List UInt8 :=
  let nameB := e.name ++ [0]
  let hdr := magic ++ e.fields.flatMap format08X
  hdr ++ nameB ++ zeros (pad4 (hdr ++ nameB).length) ++ e.data ++ zeros (pad4 e.data.length)

/-- `"TRAILER!!!"`. -/
def trailerName : List UInt8 := [84, 82, 65, 73, 76, 69, 82, 33, 33, 33]

def trailer : Entry := ⟨trailerName, 0, 0, 0, 1, 0, [], 0, 0⟩

/-- What is written for some entries, and the sentinel. -/
def archive (es : List Entry) : List UInt8 := es.flatMap entry ++ entry trailer

/-! ## 2. Reading -/

/-- A name of `n` bytes, its NUL among them. -/
def takeName (n : Nat) (l : List UInt8) : Option (List UInt8) :=
  if (l.take n).length = n ∧ (l.take n).getLast? = some 0 ∧ 0 ∉ (l.take n).dropLast then
    some (l.take n).dropLast
  else none

/-- A record, and what follows it. -/
def readRecord (l : List UInt8) : Option (Entry × List UInt8) :=
  if l.take 6 = magic then
    match readFields 13 (l.drop 6) with
    | some ([_, mode, uid, gid, nlink, mtime, filesize, _, _, rmaj, rmin, namesize, _], l) =>
      match takeName namesize.toNat l with
      | none => none
      | some name =>
        let l := l.drop (namesize.toNat + pad4 (110 + namesize.toNat))
        if l.length < filesize.toNat then none
        else some (⟨name, mode, uid, gid, nlink, mtime, l.take filesize.toNat, rmaj, rmin⟩,
          l.drop (filesize.toNat + pad4 filesize.toNat))
    | _ => none
  else none

/-- The records before the sentinel, at most as many as `n`. -/
def readAll : Nat → List UInt8 → Option (List Entry)
  | 0, _ => none
  | n + 1, l =>
    match readRecord l with
    | none => none
    | some (e, l) => if e.name = trailerName then some [] else (readAll n l).map (e :: ·)

def readNewc (l : List UInt8) : Option (List Entry) := readAll (l.length + 1) l

/-! ## 3. Round trip -/

/-- Every number of the header has eight digits, and the name ends where its NUL is. -/
structure Encodable (e : Entry) : Prop where
  fields : ∀ v ∈ e.fields, 0 ≤ v ∧ v < 2 ^ 32
  name : 0 ∉ e.name

theorem Encodable.length_header {e : Entry} (h : Encodable e) :
    (magic ++ e.fields.flatMap format08X).length = 110 := by
  rw [List.length_append, length_format h.fields]
  rfl

/-- A record in the order in which it is read. -/
theorem entry_append {e : Entry} (h : Encodable e) (rest : List UInt8) : entry e ++ rest =
    magic ++ (e.fields.flatMap format08X ++ (e.name ++ [0] ++ (zeros (pad4 (110 + (e.name ++ [0]).length)) ++
      (e.data ++ (zeros (pad4 e.data.length) ++ rest))))) := by
  have hlen : (magic ++ e.fields.flatMap format08X ++ (e.name ++ [0])).length = 110 + (e.name ++ [0]).length := by
    rw [List.length_append, h.length_header]
  unfold entry
  dsimp only
  rw [hlen]
  simp only [List.append_assoc]

theorem takeName_append {name l : List UInt8} (h : 0 ∉ name) :
    takeName (name ++ [0]).length (name ++ [0] ++ l) = some name := by
  unfold takeName
  rw [List.take_left' rfl, List.dropLast_concat, if_pos]
  exact ⟨rfl, List.getLast?_concat, h⟩

theorem length_zeros (n : Nat) : (zeros n).length = n := List.length_replicate

/-- **A record is read back**, and what follows it is left. -/
theorem readRecord_entry {e : Entry} (h : Encodable e) (rest : List UInt8) :
    readRecord (entry e ++ rest) = some (e, rest) := by
  obtain ⟨tail, htail⟩ : ∃ t, zeros (pad4 (110 + (e.name ++ [0]).length)) ++
      (e.data ++ (zeros (pad4 e.data.length) ++ rest)) = t := ⟨_, rfl⟩
  have hread : readFields 13 (e.fields.flatMap format08X ++ (e.name ++ [0] ++ tail)) =
      some (e.fields, e.name ++ [0] ++ tail) := readFields_format h.fields _
  have hdrop : (e.name ++ [0] ++ tail).drop ((e.name ++ [0]).length + pad4 (110 + (e.name ++ [0]).length)) =
      e.data ++ (zeros (pad4 e.data.length) ++ rest) := by
    rw [← List.drop_drop, List.drop_left' rfl, ← htail, List.drop_left' (length_zeros _)]
  have hmagic : magic.length = 6 := rfl
  rw [entry_append h, htail]
  unfold readRecord
  rw [List.take_left' hmagic, if_pos rfl, List.drop_left' hmagic, hread]
  unfold Entry.fields
  dsimp only
  rw [Int.toNat_natCast, Int.toNat_natCast, takeName_append h.name]
  dsimp only
  rw [hdrop, if_neg (by rw [List.length_append]; omega), List.take_left' rfl, ← List.drop_drop,
    List.drop_left' rfl, List.drop_left' (length_zeros _)]

/-- **A record ends at a multiple of 4**, if it starts at one. -/
theorem entry_aligned (e : Entry) : 4 ∣ (entry e).length := by
  unfold entry
  dsimp only
  rw [List.length_append, List.length_append, List.length_append, length_zeros, length_zeros]
  unfold pad4
  omega

theorem records_aligned (es : List Entry) : 4 ∣ (es.flatMap entry).length := by
  induction es with
  | nil => exact Nat.dvd_zero 4
  | cons e es ih =>
    rw [List.flatMap_cons, List.length_append]
    exact Nat.dvd_add (entry_aligned e) ih

theorem trailer_encodable : Encodable trailer where
  fields := by decide
  name := by decide

/-- Induction on the entries: a record for each, and then the sentinel. -/
theorem readAll_archive {es : List Entry} (h : ∀ e ∈ es, Encodable e) (hname : ∀ e ∈ es, e.name ≠ trailerName)
    {n : Nat} (hn : es.length < n) : readAll n (archive es) = some es := by
  induction es generalizing n with
  | nil =>
    obtain ⟨n, rfl⟩ := Nat.exists_eq_succ_of_ne_zero (Nat.ne_of_gt hn)
    have hread := readRecord_entry trailer_encodable []
    rw [List.append_nil] at hread
    unfold archive readAll
    rw [List.flatMap_nil, List.nil_append, hread]
    exact if_pos rfl
  | cons e es ih =>
    obtain ⟨n, rfl⟩ := Nat.exists_eq_succ_of_ne_zero (Nat.ne_of_gt (Nat.zero_lt_of_lt hn))
    have harchive : archive (e :: es) = entry e ++ archive es := by
      unfold archive
      rw [List.flatMap_cons, List.append_assoc]
    unfold readAll
    rw [harchive, readRecord_entry (h e List.mem_cons_self)]
    dsimp only
    rw [if_neg (hname e List.mem_cons_self), ih (fun u hu => h u (List.mem_cons_of_mem _ hu))
      (fun u hu => hname u (List.mem_cons_of_mem _ hu)) (Nat.lt_of_succ_lt_succ hn)]
    rfl

theorem length_le_records (es : List Entry) : es.length ≤ (es.flatMap entry).length := by
  induction es with
  | nil => exact Nat.le_refl 0
  | cons e es ih =>
    have hpos : 0 < (entry e).length := Nat.lt_of_lt_of_le (by decide) (List.prefix_append magic _).length_le
    rw [List.flatMap_cons, List.length_append, List.length_cons]
    omega

/-- **An archive** is read back as the entries that were written, and each record of it starts at a multiple
    of 4. -/
theorem readNewc_archive {es : List Entry} (h : ∀ e ∈ es, Encodable e)
    (hname : ∀ e ∈ es, e.name ≠ trailerName) : readNewc (archive es) = some es ∧
      ∀ pre post, es ++ [trailer] = pre ++ post → 4 ∣ (pre.flatMap entry).length := by
  refine ⟨readAll_archive h hname ?_, fun pre _ _ => records_aligned pre⟩
  have hle := length_le_records es
  unfold archive
  rw [List.length_append]
  omega

/-- A file, a symlink and a device. -/
theorem readNewc_three : readNewc (archive [⟨[97], 0o100644, 0, 0, 1, 1700000000, [104, 105, 10], 0, 0⟩,
      ⟨[98, 98], 0o120777, 0, 0, 1, 0, [97], 0, 0⟩, ⟨[99, 99, 99], 0o20600, 0, 5, 1, 0, [], 5, 1⟩]) =
    some [⟨[97], 0o100644, 0, 0, 1, 1700000000, [104, 105, 10], 0, 0⟩,
      ⟨[98, 98], 0o120777, 0, 0, 1, 0, [97], 0, 0⟩, ⟨[99, 99, 99], 0o20600, 0, 5, 1, 0, [], 5, 1⟩] := by
  refine (readNewc_archive ?_ (by decide)).1
  intro e he
  simp only [List.mem_cons, List.not_mem_nil, or_false] at he
  rcases he with rfl | rfl | rfl <;> exact ⟨by decide, by decide⟩

/-! ## 4. What is read -/

theorem takeName_some {n : Nat} {l name : List UInt8} (h : takeName n l = some name) :
    (name ++ [0]).length = n ∧ 0 ∉ name := by
  unfold takeName at h
  split at h
  · rename_i hcond
    obtain ⟨hlen, hlast, hno⟩ := hcond
    obtain rfl := Option.some.inj h
    rw [List.dropLast_append_getLast? 0 hlast]
    exact ⟨hlen, hno⟩
  · cases h

/-- **A record that is read** has room in the format. -/
theorem readRecord_encodable {l rest : List UInt8} {e : Entry} (h : readRecord l = some (e, rest)) :
    Encodable e := by
  unfold readRecord at h
  split at h
  · split at h
    · rename_i ino mode uid gid nlink mtime filesize maj min rmaj rmin namesize chk l' hread
      have hbounds := readFields_bounds hread
      simp only [List.mem_cons, List.not_mem_nil, or_false, forall_eq_or_imp, forall_eq] at hbounds
      obtain ⟨-, hmode, huid, hgid, hnlink, hmtime, hsize, -, -, hrmaj, hrmin, hname, -⟩ := hbounds
      cases htake : takeName namesize.toNat l' with
      | none =>
        rw [htake] at h
        cases h
      | some name =>
        rw [htake] at h
        dsimp only at h
        obtain ⟨hlen, hno⟩ := takeName_some htake
        split at h
        · cases h
        · rename_i hfit
          obtain ⟨rfl, -⟩ := Prod.mk.inj (Option.some.inj h)
          refine ⟨fun v hv => ?_, hno⟩
          have htaken := List.length_take_of_le (Nat.le_of_not_lt hfit)
          unfold Entry.fields at hv
          simp only [List.mem_cons, List.not_mem_nil, or_false, htaken, hlen] at hv
          omega
    · cases h
  · cases h

theorem readAll_encodable {n : Nat} {l : List UInt8} {es : List Entry} (h : readAll n l = some es) :
    ∀ e ∈ es, Encodable e ∧ e.name ≠ trailerName := by
  induction n generalizing l es with
  | zero => cases h
  | succ n ih =>
    unfold readAll at h
    cases hread : readRecord l with
    | none =>
      rw [hread] at h
      cases h
    | some p =>
      rw [hread] at h
      dsimp only at h
      split at h
      · obtain rfl := Option.some.inj h
        exact fun e he => absurd he List.not_mem_nil
      · rename_i hname
        obtain ⟨es', hes', rfl⟩ := Option.map_eq_some_iff.mp h
        intro e he
        rcases List.mem_cons.mp he with rfl | he
        · exact ⟨readRecord_encodable hread, hname⟩
        · exact ih hes' e he

end P4Linux.Cpio
