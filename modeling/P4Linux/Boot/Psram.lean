import Mathlib.Data.Nat.Find
import Mathlib.Data.Set.Function
import Mathlib.Order.Interval.Set.Defs
import P4Linux.Boot.Main
import P4Linux.Lib.Stores

/-!
# p4_psram.c: the test

`p4_psram_test` of `bootloader/p4/p4_psram.c`. What the address lines do is a parameter: the word `i` of the
window reaches the cell `f i`. A cell returns what was stored to it last.

* `got_ne_iff` -- a word reads back wrong if and only if a **later** word reached its cell;
* `psramTest_iff` -- **the test** passes if and only if no two words share a cell, and names the lowest word that
  lost its value.
-/

namespace P4Linux.Boot

/-! ## 1. The function -/

/-- What is printed. -/
inductive TestLine where
  /-- `bad 0x%08x: wrote 0x%08x read 0x%08x` -/
  | bad (addr wrote read : BitVec 32)
  /-- `%u of %u words bad (%u%%)` -/
  | summary (bad words percent : Nat)
  deriving DecidableEq, Repr

/-- `&mem[i]`. -/
def wordAddr (i : Nat) : BitVec 32 := BitVec.ofNat 32 (psramVaddr + 4 * i)

/-- The address-in-address pattern. -/
def pattern (i : Nat) : BitVec 32 := wordAddr i ^^^ 0xA5A5A5A5#32

variable {γ : Type} [DecidableEq γ] (f : Nat → γ)

/-- The loop that writes, from word `i` on with `n` to go. -/
def writePass : Nat → Nat → (γ → BitVec 32) → γ → BitVec 32
  | 0, _, mem => mem
  | n + 1, i, mem => writePass n (i + 1) (Function.update mem (f i) (pattern i))

/-- `bad_count`, `*out_bad_addr` if there is one, and what was printed. -/
structure Readback where
  badCount : Nat
  outBadAddr : Option (BitVec 32)
  printed : List TestLine
  deriving DecidableEq, Repr

def Readback.mismatch (s : Readback) (i : Nat) (got : BitVec 32) : Readback where
  badCount := s.badCount + 1
  outBadAddr := if s.badCount = 0 then s.outBadAddr.map fun _ => wordAddr i else s.outBadAddr
  printed := if s.badCount < 4 then s.printed ++ [.bad (wordAddr i) (pattern i) got] else s.printed

omit [DecidableEq γ] in
/-- The loop that reads back. -/
def readPass (mem : γ → BitVec 32) : Nat → Nat → Readback → Readback
  | 0, _, s => s
  | n + 1, i, s =>
    let got := mem (f i)
    readPass mem n (i + 1) (if got ≠ pattern i then s.mismatch i got else s)

/-- `p4_psram_test`; `out` is `*out_bad_addr`, if that is not `NULL`. -/
def psramTest (mem : γ → BitVec 32) (bytes : Nat) (out : Option (BitVec 32)) :
    Bool × Readback × (γ → BitVec 32) :=
  let words := bytes / 4
  let mem := writePass f words 0 mem
  let s := readPass f mem words 0 ⟨0, out.map fun _ => 0, []⟩
  if s.badCount ≠ 0 then
    let percent := u32 (s.badCount * 100) / (if words ≠ 0 then words else 1)
    (false, { s with printed := s.printed ++ [.summary s.badCount words percent] }, mem)
  else (true, s, mem)

/-! ## 2. The pattern -/

/-- **Address-in-address** tells any two words of the window apart. -/
theorem pattern_inj {words i j : Nat} (hfit : psramVaddr + 4 * words ≤ 2 ^ 32) (hi : i < words) (hj : j < words)
    (h : pattern i = pattern j) : i = j := by
  have haddr : wordAddr i = wordAddr j := by
    have hx := congrArg (· ^^^ 0xA5A5A5A5#32) h
    unfold pattern at hx
    rwa [BitVec.xor_assoc, BitVec.xor_assoc, BitVec.xor_self, BitVec.xor_zero, BitVec.xor_zero] at hx
  have hnat := congrArg BitVec.toNat haddr
  unfold wordAddr at hnat
  rw [BitVec.toNat_ofNat, BitVec.toNat_ofNat] at hnat
  omega

/-! ## 3. The first pass -/

theorem writePass_eq (n i : Nat) (mem : γ → BitVec 32) :
    writePass f n i mem = Stores.put mem ((List.range' i n).map fun k => (f k, pattern k)) := by
  induction n generalizing i mem with
  | zero => rfl
  | succ n ih =>
    rw [writePass, ih, List.range'_succ, List.map_cons, Stores.put_cons]

/-- The cell of the word `i` is the cell of a later word. -/
def Overwritten (words i : Nat) : Prop := i < words ∧ ∃ j, i < j ∧ j < words ∧ f j = f i

variable {f}

/-- **What reads back wrong** is what a later word has overwritten. -/
theorem got_ne_iff {words i : Nat} (hfit : psramVaddr + 4 * words ≤ 2 ^ 32) (hi : i < words)
    (mem : γ → BitVec 32) : writePass f words 0 mem (f i) ≠ pattern i ↔ Overwritten f words i := by
  rw [writePass_eq, ← List.range_eq_range']
  obtain ⟨j, hij, hj, hf, hlast, hv⟩ := Stores.put_range mem f pattern hi
  rw [hv]
  constructor
  · intro hne
    have hlt : i < j := by
      have hne' : i ≠ j := fun h => hne (by rw [h])
      omega
    exact ⟨hi, j, hlt, hj, hf⟩
  · rintro ⟨-, k, hik, hk, hfk⟩ heq
    obtain rfl := pattern_inj hfit hj hi heq
    exact hlast k hik hk hfk

/-! ## 4. The second pass -/

section

variable {mem : γ → BitVec 32}

omit [DecidableEq γ]

theorem readPass_append (n n' i : Nat) (s : Readback) :
    readPass f mem (n + n') i s = readPass f mem n' (i + n) (readPass f mem n i s) := by
  induction n generalizing i s with
  | zero => rw [Nat.zero_add, Nat.add_zero, readPass]
  | succ n ih => rw [Nat.succ_add, readPass, readPass, ih, Nat.succ_add_eq_add_succ]

/-- Words that read back as they were written change nothing. -/
theorem readPass_good {n i : Nat} (s : Readback) (h : ∀ k, i ≤ k → k < i + n → mem (f k) = pattern k) :
    readPass f mem n i s = s := by
  induction n generalizing i with
  | zero => rfl
  | succ n ih =>
    rw [readPass, if_neg (not_not.mpr (h i (Nat.le_refl i) (by omega)))]
    exact ih fun k hk hk' => h k (by omega) (by omega)

/-- After the first mismatch the address stays. -/
theorem readPass_counted {n i : Nat} {s : Readback} (h : s.badCount ≠ 0) :
    (readPass f mem n i s).badCount ≠ 0 ∧ (readPass f mem n i s).outBadAddr = s.outBadAddr := by
  induction n generalizing i s with
  | zero => exact ⟨h, rfl⟩
  | succ n ih =>
    rw [readPass]
    split
    · obtain ⟨h₁, h₂⟩ := ih (i := i + 1) (s := s.mismatch i (mem (f i))) (Nat.succ_ne_zero _)
      exact ⟨h₁, h₂.trans (if_neg h)⟩
    · exact ih h

/-- **The first mismatch** is the one that is reported. -/
theorem readPass_first {words k : Nat} (out : Option (BitVec 32)) (hk : k < words)
    (hbad : mem (f k) ≠ pattern k) (hgood : ∀ i, i < k → mem (f i) = pattern i) :
    (readPass f mem words 0 ⟨0, out, []⟩).badCount ≠ 0 ∧
      (readPass f mem words 0 ⟨0, out, []⟩).outBadAddr = out.map fun _ => wordAddr k := by
  obtain ⟨n, rfl⟩ : ∃ n, words = k + (n + 1) := ⟨words - k - 1, by omega⟩
  have hprefix := readPass_good (n := k) (i := 0) ⟨0, out, []⟩ fun i _ hi => hgood i (by omega)
  rw [readPass_append, hprefix, Nat.zero_add, readPass, if_pos hbad]
  exact readPass_counted (s := Readback.mismatch ⟨0, out, []⟩ k (mem (f k))) (Nat.succ_ne_zero _)

end

/-! ## 5. The test -/

theorem psramTest_pass {words bytes : Nat} (hw : words = bytes / 4) (hfit : psramVaddr + 4 * words ≤ 2 ^ 32)
    (mem : γ → BitVec 32) (out : Option (BitVec 32)) (h : ∀ i, ¬Overwritten f words i) :
    (psramTest f mem bytes out).1 = true := by
  have hgood : ∀ k, 0 ≤ k → k < 0 + words → writePass f words 0 mem (f k) = pattern k := fun k _ hk =>
    not_not.mp fun hne => h k ((got_ne_iff hfit (by omega) mem).mp hne)
  unfold psramTest
  rw [← hw]
  dsimp only
  rw [readPass_good _ hgood]
  rfl

theorem psramTest_fail {words bytes : Nat} (hw : words = bytes / 4) (hfit : psramVaddr + 4 * words ≤ 2 ^ 32)
    (mem : γ → BitVec 32) (out : Option (BitVec 32)) {k : Nat} (hk : Overwritten f words k)
    (hlow : ∀ i, i < k → ¬Overwritten f words i) : (psramTest f mem bytes out).1 = false ∧
      (psramTest f mem bytes out).2.1.outBadAddr = out.map fun _ => wordAddr k := by
  have hkw := hk.1
  have hgood : ∀ i, i < k → writePass f words 0 mem (f i) = pattern i := fun i hi =>
    not_not.mp fun hne => hlow i hi ((got_ne_iff hfit (by omega) mem).mp hne)
  obtain ⟨hcount, haddr⟩ := readPass_first (out.map fun _ => 0) hkw ((got_ne_iff hfit hkw mem).mpr hk) hgood
  unfold psramTest
  rw [← hw]
  dsimp only
  rw [if_pos hcount]
  refine ⟨rfl, haddr.trans ?_⟩
  cases out with
  | none => rfl
  | some _ => rfl

omit [DecidableEq γ] in
theorem injOn_iff {words : Nat} : Set.InjOn f (Set.Iio words) ↔ ∀ i, ¬Overwritten f words i := by
  constructor
  · rintro h i ⟨hi, j, hij, hj, hf⟩
    exact absurd (h hj hi hf) (Nat.ne_of_gt hij)
  · intro h i hi j hj hf
    rcases Nat.lt_trichotomy i j with hlt | heq | hlt
    · exact absurd ⟨hi, j, hlt, hj, hf.symm⟩ (h i)
    · exact heq
    · exact absurd ⟨hj, i, hlt, hi, hf⟩ (h j)

/-- **The test finds every fault of the address lines**, and names the lowest word that it cost. -/
theorem psramTest_iff (f : Nat → γ) (mem : γ → BitVec 32) (bytes : Nat) (out : Option (BitVec 32))
    (hfit : psramVaddr + 4 * (bytes / 4) ≤ 2 ^ 32) :
    ((psramTest f mem bytes out).1 = true ↔ Set.InjOn f (Set.Iio (bytes / 4))) ∧
      ((psramTest f mem bytes out).1 = false → ∃ k, Overwritten f (bytes / 4) k ∧
        (∀ i, i < k → ¬Overwritten f (bytes / 4) i) ∧
        (psramTest f mem bytes out).2.1.outBadAddr = out.map fun _ => wordAddr k) := by
  rw [injOn_iff]
  by_cases h : ∀ i, ¬Overwritten f (bytes / 4) i
  · have hpass := psramTest_pass rfl hfit mem out h
    refine ⟨iff_of_true hpass h, fun hfail => ?_⟩
    rw [hpass] at hfail
    cases hfail
  · classical
    have hex : ∃ k, Overwritten f (bytes / 4) k := not_forall_not.mp h
    obtain ⟨hfail, haddr⟩ := psramTest_fail rfl hfit mem out (Nat.find_spec hex)
      fun i hi => Nat.find_min hex hi
    refine ⟨iff_of_false (by simp [hfail]) h, fun _ => ⟨_, Nat.find_spec hex, fun i hi => ?_, haddr⟩⟩
    exact Nat.find_min hex hi

/-- Eight words, the highest address line stuck at zero. -/
theorem psramTest_iff_stuck : (psramTest (· % 4) (fun _ => 0) 32 (some 7)).1 = false ∧
    ¬Set.InjOn (fun i : Nat => i % 4) (Set.Iio 8) ∧
    (psramTest (· % 4) (fun _ => 0) 32 (some 7)).2.1.outBadAddr = some 0x48000000 := by
  have h := (psramTest_iff (· % 4) (fun _ => 0) 32 (some 7) (by decide)).1
  refine ⟨by decide +kernel, fun hinj => ?_, by decide +kernel⟩
  have htrue := h.mpr hinj
  exact absurd htrue (by decide +kernel)

end P4Linux.Boot
