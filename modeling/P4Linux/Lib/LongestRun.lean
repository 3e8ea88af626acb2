import Mathlib.Data.Nat.Notation
import Mathlib.Tactic.ByContra

/-!
# The longest run of good points, and its middle

Of the first `n` points some are good. A run is a block of good points, and the margin of a point is how far to
either side it has good points only.

* `Longest` -- a longest run, the first of them, by its length and its last point;
* `Found`, `found_good`, `found_bad`, `Found.longest` -- a scan from left to right that counts the run it is in, and
  takes note of one only where it ends;
* `Longest.margin_le`, `Longest.margin_mid` -- **the middle of a longest run** has the greatest margin there is.
-/

namespace P4Linux.LongestRun

/-- `l` points from `lo` on, all good. -/
def Run (p : Nat → Prop) (n lo l : Nat) : Prop := lo + l ≤ n ∧ ∀ i, lo ≤ i → i < lo + l → p i

structure Longest (p : Nat → Prop) (n len last : Nat) : Prop where
  none : len = 0 → last = 0
  fits : 0 < len → len ≤ last + 1
  run : 0 < len → Run p n (last + 1 - len) len
  most : ∀ lo l, Run p n lo l → l ≤ len
  first : 0 < len → ∀ lo, Run p n lo len → last + 1 ≤ lo + len

/-- Every point within `r` of `c` is one of the `n`, and good. -/
def Margin (p : Nat → Prop) (n c r : Nat) : Prop := r ≤ c ∧ c + r < n ∧ ∀ i, c - r ≤ i → i ≤ c + r → p i

section Margins

variable {p : Nat → Prop} {n len last c r : Nat}

theorem Run.mono {n' lo l : Nat} (h : Run p n lo l) (hn : n ≤ n') : Run p n' lo l := ⟨Nat.le_trans h.1 hn, h.2⟩

theorem Margin.run (h : Margin p n c r) : Run p n (c - r) (2 * r + 1) := by
  obtain ⟨h1, h2, h3⟩ := h
  exact ⟨by omega, fun i hi hi' => h3 i hi (by omega)⟩

theorem Margin.mono {r' : Nat} (h : Margin p n c r) (hr : r' ≤ r) : Margin p n c r' := by
  obtain ⟨h1, h2, h3⟩ := h
  exact ⟨by omega, by omega, fun i hi hi' => h3 i (by omega) (by omega)⟩

theorem Longest.margin_le (h : Longest p n len last) (hm : Margin p n c r) : 2 * r + 1 ≤ len :=
  h.most _ _ hm.run

theorem Longest.margin_mid (h : Longest p n len last) (hl : 0 < len) :
    Margin p n (last - len / 2) ((len - 1) / 2) := by
  obtain ⟨hn, hall⟩ := h.run hl
  have hfit := h.fits hl
  refine ⟨by omega, by omega, ?_⟩
  intro i hi hi'
  exact hall i (by omega) (by omega)

end Margins

/-! ## The scan -/

/-- After `i` points: `cur` of them are the run the scan is in, and `len` and `last` are the longest run before that
    one. -/
structure Found (p : Nat → Prop) (i len cur last : Nat) : Prop where
  fits : cur ≤ i
  tail : ∀ j, i - cur ≤ j → j < i → p j
  cut : cur < i → ¬ p (i - cur - 1)
  before : Longest p (i - cur) len last

section Scan

variable {p : Nat → Prop} {i len cur last : Nat}

theorem found_start : Found p 0 0 0 0 := by
  refine ⟨Nat.le_refl 0, by omega, by omega, ?_⟩
  refine ⟨fun _ => rfl, by omega, by omega, ?_, by omega⟩
  intro lo l h
  have := h.1
  omega

theorem found_good (h : Found p i len cur last) (hp : p i) : Found p (i + 1) len (cur + 1) last := by
  have hf := h.fits
  have hsub : i + 1 - (cur + 1) = i - cur := by omega
  refine ⟨by omega, ?_, ?_, hsub ▸ h.before⟩
  · intro j hj hj'
    rcases Nat.lt_or_ge j i with hlt | hge
    · exact h.tail j (by omega) hlt
    · rwa [show j = i by omega]
  · intro hlt
    rw [hsub]
    exact h.cut (by omega)

/-- A run lies before the one the scan is in, or within it. -/
theorem Found.split (h : Found p i len cur last) {lo l : Nat} (hr : Run p i lo l) (hl : 0 < l) :
    lo + l ≤ i - cur ∨ i - cur ≤ lo := by
  by_contra hne
  have hlo : lo < i - cur := by omega
  exact h.cut (by omega) (hr.2 _ (by omega) (by omega))

/-- What is the longest run when the one the scan is in comes to its end. -/
theorem Found.longest (h : Found p i len cur last) :
    if cur > len then Longest p i cur (i - 1) else Longest p i len last := by
  have hf := h.fits
  split
  · rename_i hgt
    refine ⟨by omega, by omega, ?_, ?_, ?_⟩
    · intro _
      refine ⟨by omega, ?_⟩
      intro j hj hj'
      exact h.tail j (by omega) (by omega)
    · intro lo l hr
      rcases Nat.eq_zero_or_pos l with rfl | hl
      · omega
      rcases h.split hr hl with hle | hge
      · have hmost := h.before.most lo l ⟨hle, hr.2⟩
        omega
      · have hn := hr.1
        omega
    · intro _ lo hr
      rcases h.split hr (by omega) with hle | hge
      · have hmost := h.before.most lo cur ⟨hle, hr.2⟩
        omega
      · omega
  · rename_i hle
    refine ⟨h.before.none, h.before.fits, fun hl => (h.before.run hl).mono (by omega), ?_, ?_⟩
    · intro lo l hr
      rcases Nat.eq_zero_or_pos l with rfl | hl
      · omega
      rcases h.split hr hl with hle' | hge
      · exact h.before.most lo l ⟨hle', hr.2⟩
      · have hn := hr.1
        omega
    · intro hl lo hr
      rcases h.split hr hl with hle' | hge
      · exact h.before.first hl lo ⟨hle', hr.2⟩
      · have hrun := (h.before.run hl).1
        have hfit := h.before.fits hl
        omega

/-- A bad point is in no run. -/
theorem Longest.bad (h : Longest p i len last) (hp : ¬ p i) : Longest p (i + 1) len last := by
  have hrun : ∀ {lo l}, Run p (i + 1) lo l → 0 < l → Run p i lo l := by
    intro lo l hr hl
    refine ⟨?_, hr.2⟩
    by_contra hgt
    have hn := hr.1
    exact hp (hr.2 i (by omega) (by omega))
  refine ⟨h.none, h.fits, fun hl => (h.run hl).mono (by omega), ?_, fun hl lo hr => h.first hl lo (hrun hr hl)⟩
  intro lo l hr
  rcases Nat.eq_zero_or_pos l with rfl | hl
  · exact Nat.zero_le len
  · exact h.most lo l (hrun hr hl)

/-- **It ends the run** the scan is in. -/
theorem found_bad (h : Found p i len cur last) (hp : ¬ p i) :
    if cur > len then Found p (i + 1) cur 0 (i - 1) else Found p (i + 1) len 0 last := by
  have hnext : ∀ {len last}, Longest p i len last → Found p (i + 1) len 0 last := by
    intro len last hl
    exact ⟨Nat.zero_le _, by omega, fun _ => by simpa using hp, hl.bad hp⟩
  have hlong := h.longest
  split <;> rename_i hc
  · rw [if_pos hc] at hlong
    exact hnext hlong
  · rw [if_neg hc] at hlong
    exact hnext hlong

end Scan

end P4Linux.LongestRun
