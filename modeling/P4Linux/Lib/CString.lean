import Mathlib.Algebra.Group.Nat.Defs
import Mathlib.Algebra.Ring.Int.Defs
import Mathlib.Data.List.TakeWhile

/-!
# C strings in byte arrays

The string functions of the C library on the bytes of an array. A string is what lies before the
first NUL (`cstr`); a position in the array is a number, `NULL` is `none`. `long` is 32 bits wide
and `long long` 64.

* `find`, `memmem`, `strstr`, `strchr` -- searches;
* `find_some`, `find_eq_some`, `find_append` -- the first place, and that more bytes do not move it;
* `strtol`, `atoi`, `atoll` -- numbers; a value out of range is clamped, as `strtol` does;
* `strtol_row`, `strtol_append_cr` -- a row of digits has its value, whatever comes after it.
-/

namespace P4Linux.C

/-! ## 1. Strings -/

/-- The string that starts the array. -/
def cstr (l : List UInt8) : List UInt8 := l.takeWhile (· ≠ 0)

/-- The first place where `pat` occurs. -/
def find (pat : List UInt8) : List UInt8 → Option Nat
  | [] => if pat = [] then some 0 else none
  | b :: l => if pat.isPrefixOf (b :: l) then some 0 else (find pat l).map (· + 1)

/-- `memmem(buf, len, pat, n)`, as an offset. -/
def memmem (buf : List UInt8) (len : Nat) (pat : List UInt8) : Option Nat := find pat (buf.take len)

/-- `strstr(buf + off, pat)`, as an offset into `buf`. -/
def strstr (buf : List UInt8) (off : Nat) (pat : List UInt8) : Option Nat :=
  (find pat (cstr (buf.drop off))).map (· + off)

/-- `strchr(buf + off, c)`, as an offset into `buf` (`c` is not NUL). -/
def strchr (buf : List UInt8) (off : Nat) (c : UInt8) : Option Nat := strstr buf off [c]

/-- `strncmp(s, pat, strlen(pat)) == 0`. -/
def startsWith (s pat : List UInt8) : Bool := pat.isPrefixOf (cstr s)

theorem strstr_zero (buf pat : List UInt8) : strstr buf 0 pat = find pat (cstr buf) := by
  unfold strstr
  rw [List.drop_zero]
  cases find pat (cstr buf) <;> rfl

theorem find_some {pat l : List UInt8} {i : Nat} (h : find pat l = some i) :
    pat <+: l.drop i ∧ ∀ j < i, ¬ pat <+: l.drop j := by
  induction l generalizing i with
  | nil =>
    unfold find at h
    split at h
    · rename_i hp
      cases h
      exact ⟨by rw [hp]; exact List.nil_prefix, fun j hj => by omega⟩
    · cases h
  | cons b l ih =>
    unfold find at h
    split at h
    · rename_i hp
      cases h
      exact ⟨List.isPrefixOf_iff_prefix.mp hp, fun j hj => by omega⟩
    · rename_i hp
      obtain ⟨k, hk, rfl⟩ := Option.map_eq_some_iff.mp h
      obtain ⟨h1, h2⟩ := ih hk
      refine ⟨h1, fun j hj => ?_⟩
      cases j with
      | zero => exact fun hpre => hp (List.isPrefixOf_iff_prefix.mpr hpre)
      | succ j => exact h2 j (by omega)

/-- **The first place** is the only one with nothing before it. -/
theorem find_eq_some {pat l : List UInt8} {i : Nat} (hi : i ≤ l.length) (h : pat <+: l.drop i)
    (hmin : ∀ j < i, ¬ pat <+: l.drop j) : find pat l = some i := by
  induction l generalizing i with
  | nil =>
    obtain rfl : i = 0 := Nat.le_zero.mp hi
    rw [List.drop_nil, List.prefix_nil] at h
    rw [find, if_pos h]
  | cons b l ih =>
    unfold find
    cases i with
    | zero =>
      rw [List.drop_zero] at h
      rw [if_pos (List.isPrefixOf_iff_prefix.mpr h)]
    | succ i =>
      have h0 : ¬ pat <+: b :: l := hmin 0 (by omega)
      rw [if_neg fun hp => h0 (List.isPrefixOf_iff_prefix.mp hp)]
      rw [ih (Nat.le_of_succ_le_succ hi) h fun j hj => hmin (j + 1) (by omega)]
      rfl

theorem find_le {pat l : List UInt8} {i : Nat} (h : find pat l = some i) :
    i + pat.length ≤ l.length ∨ pat = [] := by
  by_cases hp : pat = []
  · exact .inr hp
  · have hlen := (find_some h).1.length_le
    rw [List.length_drop] at hlen
    have := List.length_pos_iff.mpr hp
    exact .inl (by omega)

/-- What is found in a prefix is what is found in the whole. -/
theorem find_append {pat l : List UInt8} (hp : pat ≠ []) {i : Nat} (h : find pat l = some i)
    (l' : List UInt8) : find pat (l ++ l') = some i := by
  obtain ⟨h1, h2⟩ := find_some h
  have hle := (find_le h).resolve_right hp
  have hpos := List.length_pos_iff.mpr hp
  refine find_eq_some (by rw [List.length_append]; omega) ?_ fun j hj hpre => ?_
  · rw [List.drop_append_of_le_length (by omega)]
    exact h1.trans (List.prefix_append _ _)
  · -- an earlier occurrence would end before the first one does, inside the prefix
    rw [List.drop_append_of_le_length (by omega)] at hpre
    refine h2 j hj (List.prefix_of_prefix_length_le hpre (List.prefix_append _ _) ?_)
    rw [List.length_drop]
    omega

theorem takeWhile_append_stop {α : Type} {p : α → Bool} {l t : List α} {a : α} (h : p a = false) :
    (l ++ a :: t).takeWhile p = l.takeWhile p := by
  rw [List.takeWhile_append, List.takeWhile_cons_of_neg (by rw [h]; exact Bool.false_ne_true),
    List.append_nil]
  split
  · rename_i hlen
    exact ((List.takeWhile_prefix p).eq_of_length hlen).symm
  · rfl

/-- A string ends at its first NUL, wherever the array goes on. -/
theorem cstr_append_nul (l t : List UInt8) : cstr (l ++ 0 :: t) = cstr l := takeWhile_append_stop rfl

theorem cstr_eq_self {l : List UInt8} (h : 0 ∉ l) : cstr l = l := by
  refine List.takeWhile_eq_self_iff.mpr fun b hb => ?_
  exact decide_eq_true fun e => h (e ▸ hb)

theorem zero_notMem_cstr (l : List UInt8) : 0 ∉ cstr l := by
  intro h
  have h0 := List.mem_takeWhile_imp h
  cases h0

/-- The string that starts inside another. -/
theorem cstr_drop {l : List UInt8} {k : Nat} (h : k ≤ (cstr l).length) :
    cstr (l.drop k) = (cstr l).drop k := by
  have hsplit : cstr l ++ l.dropWhile (· ≠ 0) = l := List.takeWhile_append_dropWhile
  have hrest : (l.dropWhile (· ≠ 0)).takeWhile (· ≠ 0) = [] := by
    rw [List.takeWhile_eq_nil_iff]
    exact List.dropWhile_get_zero_not _ _
  have hpos : ∀ b ∈ (cstr l).drop k, decide (b ≠ 0) = true := fun b hb =>
    decide_eq_true fun e => zero_notMem_cstr l (e ▸ List.mem_of_mem_drop hb)
  have hl : l.drop k = (cstr l).drop k ++ l.dropWhile (· ≠ 0) := by
    conv_lhs => rw [← hsplit]
    exact List.drop_append_of_le_length h
  rw [hl]
  unfold cstr at hpos ⊢
  rw [List.takeWhile_append_of_pos hpos, hrest, List.append_nil]

/-- A NUL put into a string cuts it. -/
theorem cstr_set {l : List UInt8} {k : Nat} (h : k < (cstr l).length) :
    cstr (l.set k 0) = (cstr l).take k := by
  have hle : (cstr l).length ≤ l.length := (List.takeWhile_prefix _).length_le
  have htake : l.take k = (cstr l).take k := by
    obtain ⟨t, ht⟩ : cstr l <+: l := List.takeWhile_prefix _
    conv_lhs => rw [← ht]
    exact List.take_append_of_le_length (Nat.le_of_lt h)
  rw [List.set_eq_take_append_cons_drop, if_pos (by omega), htake, cstr_append_nul]
  refine cstr_eq_self fun h0 => zero_notMem_cstr l (List.mem_of_mem_take h0)

theorem find_char {c : UInt8} {l : List UInt8} (h : c ∉ l) (t : List UInt8) :
    find [c] (l ++ c :: t) = some l.length := by
  induction l with
  | nil =>
    exact if_pos (List.isPrefixOf_iff_prefix.mpr (List.prefix_append [c] t))
  | cons b l ih =>
    rw [List.mem_cons, not_or] at h
    rw [List.cons_append, find, if_neg, ih h.2]
    · rfl
    · intro hpre
      exact h.1 (List.cons_prefix_cons.mp (List.isPrefixOf_iff_prefix.mp hpre)).1

theorem find_char_none {c : UInt8} {l : List UInt8} (h : c ∉ l) : find [c] l = none := by
  cases hf : find [c] l with
  | none => rfl
  | some i =>
    obtain ⟨t, ht⟩ := (find_some hf).1
    have hmem : c ∈ l.drop i := by
      rw [← ht]
      exact List.mem_cons_self
    exact absurd (List.mem_of_mem_drop hmem) h

/-- A character is missing, or has a first place. -/
theorem find_char_cases (c : UInt8) (l : List UInt8) :
    c ∉ l ∧ find [c] l = none ∨ ∃ a t, l = a ++ c :: t ∧ c ∉ a ∧ find [c] l = some a.length := by
  by_cases h : c ∈ l
  · obtain ⟨a, t, rfl, ha⟩ := List.eq_append_cons_of_mem h
    exact .inr ⟨a, t, rfl, ha, find_char ha t⟩
  · exact .inl ⟨h, find_char_none h⟩

theorem forall_ne {c : UInt8} {a : List UInt8} (h : c ∉ a) : ∀ b ∈ a, decide (b ≠ c) = true :=
  fun _ hb => decide_eq_true fun e => h (e ▸ hb)

theorem takeWhile_ne {c : UInt8} {a : List UInt8} (h : c ∉ a) (t : List UInt8) :
    (a ++ c :: t).takeWhile (fun b => decide (b ≠ c)) = a := by
  have hstop : decide (c ≠ c) = false := decide_eq_false (not_not_intro rfl)
  rw [List.takeWhile_append_of_pos (forall_ne h), List.takeWhile_cons, hstop]
  exact List.append_nil a

theorem dropWhile_ne {c : UInt8} {a : List UInt8} (h : c ∉ a) (t : List UInt8) :
    (a ++ c :: t).dropWhile (fun b => decide (b ≠ c)) = c :: t := by
  have hstop : decide (c ≠ c) = false := decide_eq_false (not_not_intro rfl)
  rw [List.dropWhile_append_of_pos (forall_ne h), List.dropWhile_cons, hstop]
  rfl

/-! ## 2. Numbers -/

def isSpace (b : UInt8) : Bool := b = 32 || (9 ≤ b && b ≤ 13)

/-- The value of a digit or letter. -/
def digit (b : UInt8) : Option Nat :=
  if 48 ≤ b ∧ b ≤ 57 then some (b.toNat - 48)
  else if 97 ≤ b ∧ b ≤ 122 then some (b.toNat - 97 + 10)
  else if 65 ≤ b ∧ b ≤ 90 then some (b.toNat - 65 + 10)
  else none

def isDigit (base : Nat) (b : UInt8) : Bool := (digit b).any (· < base)

/-- The value of a row of digits. -/
def value (base : Nat) (l : List UInt8) : Nat := l.foldl (fun n b => n * base + (digit b).getD 0) 0

/-- The `0x` a base-16 number may start with. -/
def skip0x (base : Nat) (l : List UInt8) : List UInt8 :=
  match l with
  | 48 :: x :: rest => if base = 16 ∧ (x = 120 ∨ x = 88) then rest else l
  | _ => l

def sign (l : List UInt8) : Bool × List UInt8 :=
  match l with
  | 45 :: rest => (true, rest)
  | 43 :: rest => (false, rest)
  | _ => (false, l)

def clamp (bits : Nat) (n : Int) : Int := max (-(2 ^ (bits - 1))) (min n (2 ^ (bits - 1) - 1))

/-- `strtol(s, NULL, base)` for a `long` of the given width. -/
def strtol (bits base : Nat) (s : List UInt8) : Int :=
  let (neg, l) := sign ((cstr s).dropWhile isSpace)
  let n := value base ((skip0x base l).takeWhile (isDigit base))
  clamp bits (if neg then -(n : Int) else n)

def atoi (s : List UInt8) : Int := strtol 32 10 s

def atoll (s : List UInt8) : Int := strtol 64 10 s

theorem atoi_append_nul (l t : List UInt8) : atoi (l ++ 0 :: t) = atoi l := by
  unfold atoi strtol
  rw [cstr_append_nul]

/-- White space in front of a number. -/
theorem atoi_spaces {l : List UInt8} (h : ∀ c ∈ l, isSpace c = true) (t : List UInt8) :
    atoi (l ++ t) = atoi t := by
  have hpos : ∀ c ∈ l, decide (c ≠ 0) = true := by
    intro c hc
    refine decide_eq_true ?_
    rintro rfl
    cases h 0 hc
  have hcstr : cstr (l ++ t) = l ++ cstr t := by
    unfold cstr
    exact List.takeWhile_append_of_pos hpos
  unfold atoi strtol
  rw [hcstr, List.dropWhile_append_of_pos h]

theorem skip0x_ten (l : List UInt8) : skip0x 10 l = l := by
  unfold skip0x
  split
  · exact if_neg fun h => absurd h.1 (by decide)
  · rfl

theorem sign_append (a : UInt8) (l t : List UInt8) :
    sign (a :: l ++ t) = ((sign (a :: l)).1, (sign (a :: l)).2 ++ t) := by
  by_cases h45 : a = 45
  · rw [h45]
    rfl
  · by_cases h43 : a = 43
    · rw [h43]
      rfl
    · have hnone : ∀ l, sign (a :: l) = (false, a :: l) := by
        intro l
        unfold sign
        split
        · rename_i he
          exact absurd (List.cons.inj he).1 h45
        · rename_i he
          exact absurd (List.cons.inj he).1 h43
        · rfl
      rw [List.cons_append, hnone, hnone]
      rfl

theorem isDigit_ten {b : UInt8} (h : isDigit 10 b) : b ≠ 0 ∧ b ≠ 43 ∧ b ≠ 45 ∧ isSpace b = false := by
  cases b with
  | ofBitVec v =>
    revert v
    decide +kernel

/-- A row of digits, and something that is none. -/
theorem strtol_row {bits : Nat} {ds t : List UInt8} (hne : ds ≠ []) (hds : ∀ b ∈ ds, isDigit 10 b)
    (ht : ∀ b, t.head? = some b → isDigit 10 b = false) : strtol bits 10 (ds ++ t) = clamp bits (value 10 ds) := by
  have hcstr : cstr (ds ++ t) = ds ++ cstr t := by
    unfold cstr
    exact List.takeWhile_append_of_pos fun b hb => decide_eq_true (isDigit_ten (hds b hb)).1
  have hrow : (ds ++ cstr t).takeWhile (isDigit 10) = ds := by
    rw [List.takeWhile_append_of_pos hds]
    cases t with
    | nil => exact List.append_nil ds
    | cons b t =>
      have hb : isDigit 10 b = false := ht b rfl
      unfold cstr
      rw [List.takeWhile_cons]
      split
      · rw [List.takeWhile_cons_of_neg (by rw [hb]; exact Bool.false_ne_true), List.append_nil]
      · exact List.append_nil ds
  obtain ⟨d, ds, rfl⟩ := List.exists_cons_of_ne_nil hne
  obtain ⟨-, hplus, hminus, hspace⟩ := isDigit_ten (hds d List.mem_cons_self)
  have hsign : sign (d :: (ds ++ cstr t)) = (false, d :: (ds ++ cstr t)) := by
    unfold sign
    split
    · rename_i he
      exact absurd (List.cons.inj he).1 hminus
    · rename_i he
      exact absurd (List.cons.inj he).1 hplus
    · rfl
  unfold strtol
  rw [hcstr, List.cons_append, List.dropWhile_cons_of_neg (by rw [hspace]; exact Bool.false_ne_true), hsign]
  dsimp only
  rw [skip0x_ten, ← List.cons_append, hrow, if_neg Bool.false_ne_true]

/-- **A number ends where its string does**, and at a CR: what follows says nothing, once there is a byte
    that is no white space. -/
theorem strtol_append_cr {bits : Nat} {l : List UInt8} (h : ∃ c ∈ l, isSpace c = false)
    (t : List UInt8) : strtol bits 10 (l ++ 13 :: t) = strtol bits 10 l := by
  by_cases h0 : 0 ∈ l
  · obtain ⟨u, v, rfl⟩ := List.append_of_mem h0
    have hc : cstr (u ++ 0 :: v ++ 13 :: t) = cstr (u ++ 0 :: v) := by
      rw [List.append_assoc, List.cons_append, cstr_append_nul, cstr_append_nul]
    unfold strtol
    rw [hc]
  · have hc : cstr (l ++ 13 :: t) = l ++ 13 :: cstr t := by
      have hpos : ∀ b ∈ l, (decide (b ≠ 0)) = true := fun b hb => decide_eq_true fun e => h0 (e ▸ hb)
      unfold cstr
      rw [List.takeWhile_append_of_pos hpos]
      rfl
    have hne : l.dropWhile isSpace ≠ [] := by
      obtain ⟨c, hc, hs⟩ := h
      intro hnil
      have := List.dropWhile_eq_nil_iff.mp hnil c hc
      rw [hs] at this
      cases this
    have hsplit : (l ++ 13 :: cstr t).dropWhile isSpace = l.dropWhile isSpace ++ 13 :: cstr t := by
      rw [List.dropWhile_append, if_neg fun he => hne (List.isEmpty_iff.mp he)]
    unfold strtol
    rw [hc, cstr_eq_self h0, hsplit]
    obtain ⟨a, u, hu⟩ := List.exists_cons_of_ne_nil hne
    rw [hu, sign_append]
    dsimp only
    rw [skip0x_ten, skip0x_ten, takeWhile_append_stop rfl]

end P4Linux.C
