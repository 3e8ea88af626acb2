import Mathlib.Data.List.Induction
import Mathlib.Tactic.Common
import P4Linux.Lib.CString

/-!
# Hexadecimal numbers in text

* `format08X` -- `%08X`: eight upper-case digits, and more where eight do not hold the number;
* `readField`, `readFields` -- rows of fields of eight digits each;
* `readField_format`, `readFields_format` -- what was formatted is read back.
-/

namespace P4Linux.Hex

open C

/-! ## 1. Digits -/

def hexDigit (d : Nat) : UInt8 := if d < 10 then UInt8.ofNat (48 + d) else UInt8.ofNat (55 + d)

/-- The last `k` digits of a number. -/
def hexRow : Nat → Nat → List UInt8
  | 0, _ => []
  | k + 1, n => hexRow k (n / 16) ++ [hexDigit (n % 16)]

theorem digit_hexDigit {d : Nat} (h : d < 16) : digit (hexDigit d) = some d := by
  revert d
  decide

@[simp] theorem length_hexRow (k n : Nat) : (hexRow k n).length = k := by
  induction k generalizing n with
  | zero => rfl
  | succ k ih => rw [hexRow, List.length_append, ih, List.length_singleton]

theorem isDigit_hexRow {k n : Nat} {b : UInt8} (h : b ∈ hexRow k n) : isDigit 16 b = true := by
  induction k generalizing n with
  | zero => cases h
  | succ k ih =>
    rcases List.mem_append.mp h with h | h
    · exact ih h
    · rw [List.mem_singleton.mp h]
      unfold isDigit
      rw [digit_hexDigit (Nat.mod_lt _ (by decide)), Option.any_some]
      exact decide_eq_true (Nat.mod_lt _ (by decide))

theorem value_append (base : Nat) (l : List UInt8) (b : UInt8) :
    value base (l ++ [b]) = value base l * base + (digit b).getD 0 := by
  unfold value
  rw [List.foldl_append]
  rfl

/-- **A row of digits** has the value of the number it was cut from. -/
theorem value_hexRow (k n : Nat) : value 16 (hexRow k n) = n % 16 ^ k := by
  induction k generalizing n with
  | zero => exact (Nat.mod_one n).symm
  | succ k ih =>
    rw [hexRow, value_append, ih, digit_hexDigit (Nat.mod_lt _ (by decide)), Option.getD_some, Nat.pow_succ,
      Nat.mul_comm (16 ^ k), Nat.mod_mul]
    omega

/-! ## 2. Fields -/

/-- The number of digits. -/
def hexLength (n : Nat) : Nat := n.log2 / 4 + 1

/-- `%08X`. -/
def format08X (v : Int) : List UInt8 :=
  if 0 ≤ v then hexRow (max 8 (hexLength v.toNat)) v.toNat
  else 45 :: hexRow (max 7 (hexLength v.natAbs)) v.natAbs

theorem format08X_eq {v : Int} (h0 : 0 ≤ v) (h : v < 2 ^ 32) : format08X v = hexRow 8 v.toNat := by
  have hlog : v.toNat.log2 < 32 := by
    by_cases hv : v.toNat = 0
    · rw [hv]
      decide
    · exact (Nat.log2_lt hv).mpr (by omega)
  have hmax : max 8 (hexLength v.toNat) = 8 := by
    unfold hexLength
    omega
  rw [format08X, if_pos h0, hmax]

/-- A field of eight digits, and what follows it. -/
def readField (l : List UInt8) : Option (Int × List UInt8) :=
  if (l.take 8).length = 8 ∧ (l.take 8).all (isDigit 16) then some (value 16 (l.take 8), l.drop 8) else none

def readFields : Nat → List UInt8 → Option (List Int × List UInt8)
  | 0, l => some ([], l)
  | k + 1, l =>
    match readField l with
    | none => none
    | some (v, l) => (readFields k l).map fun r => (v :: r.1, r.2)

theorem readField_format {v : Int} (h0 : 0 ≤ v) (h : v < 2 ^ 32) (l : List UInt8) :
    readField (format08X v ++ l) = some (v, l) := by
  have hlen : (hexRow 8 v.toNat).length = 8 := length_hexRow _ _
  have hall : (hexRow 8 v.toNat).all (isDigit 16) = true := List.all_eq_true.mpr fun b hb => isDigit_hexRow hb
  have hvalue : (value 16 (hexRow 8 v.toNat) : Int) = v := by
    rw [value_hexRow, Nat.mod_eq_of_lt (by omega)]
    exact Int.toNat_of_nonneg h0
  unfold readField
  rw [format08X_eq h0 h, List.take_left' hlen, List.drop_left' hlen, if_pos ⟨hlen, hall⟩, hvalue]

/-- **Fields are read back** as they were formatted. -/
theorem readFields_format {vs : List Int} (h : ∀ v ∈ vs, 0 ≤ v ∧ v < 2 ^ 32) (l : List UInt8) :
    readFields vs.length (vs.flatMap format08X ++ l) = some (vs, l) := by
  induction vs with
  | nil => rfl
  | cons v vs ih =>
    obtain ⟨h0, hlt⟩ := h v List.mem_cons_self
    rw [List.flatMap_cons, List.append_assoc, List.length_cons, readFields, readField_format h0 hlt]
    dsimp only
    rw [ih fun u hu => h u (List.mem_cons_of_mem _ hu)]
    rfl

theorem length_format {vs : List Int} (h : ∀ v ∈ vs, 0 ≤ v ∧ v < 2 ^ 32) :
    (vs.flatMap format08X).length = 8 * vs.length := by
  induction vs with
  | nil => rfl
  | cons v vs ih =>
    obtain ⟨h0, hlt⟩ := h v List.mem_cons_self
    rw [List.flatMap_cons, List.length_append, ih fun u hu => h u (List.mem_cons_of_mem _ hu),
      format08X_eq h0 hlt, length_hexRow, List.length_cons]
    omega

/-- What is read is a number of eight digits. -/
theorem readField_bounds {l l' : List UInt8} {v : Int} (h : readField l = some (v, l')) :
    0 ≤ v ∧ v < 2 ^ 32 := by
  have hbound : ∀ {f : List UInt8}, f.all (isDigit 16) = true → value 16 f < 16 ^ f.length := by
    intro f
    induction f using List.reverseRecOn with
    | nil => exact fun _ => by decide
    | append_singleton f b ih =>
      intro hall
      rw [List.all_append, Bool.and_eq_true] at hall
      obtain ⟨d, hd, hlt⟩ : ∃ d, digit b = some d ∧ d < 16 := by
        have hb : isDigit 16 b = true := List.all_eq_true.mp hall.2 b List.mem_cons_self
        obtain ⟨d, hd, hlt⟩ := (Option.any_eq_true _ _).mp hb
        exact ⟨d, hd, of_decide_eq_true hlt⟩
      have := ih hall.1
      rw [value_append, hd, Option.getD_some, List.length_append, List.length_singleton, Nat.pow_succ]
      omega
  unfold readField at h
  split at h
  · rename_i hf
    cases h
    have hlt := hbound hf.2
    rw [hf.1] at hlt
    refine ⟨Int.natCast_nonneg _, ?_⟩
    omega
  · cases h

theorem readFields_bounds {k : Nat} {l l' : List UInt8} {vs : List Int} (h : readFields k l = some (vs, l')) :
    ∀ v ∈ vs, 0 ≤ v ∧ v < 2 ^ 32 := by
  induction k generalizing l vs with
  | zero =>
    cases h
    exact fun v hv => absurd hv List.not_mem_nil
  | succ k ih =>
    unfold readFields at h
    split at h
    · cases h
    · rename_i u t hfield
      obtain ⟨⟨us, t'⟩, hrest, he⟩ := Option.map_eq_some_iff.mp h
      cases he
      intro v hv
      rcases List.mem_cons.mp hv with rfl | hv
      · exact readField_bounds hfield
      · exact ih hrest v hv

end P4Linux.Hex
