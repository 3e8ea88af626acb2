import Mathlib.Data.BitVec
import Mathlib.Data.List.Count
import P4Linux.Lib.LongestRun

/-!
# The timing of the PSRAM interface

`mspi_timing_psram_tuning` of the vendored `mspi_timing_tuning.c`, with the scheme of `mspi_timing_by_dqs.c`. The
data strobe is swept through four phases, and then strobe and data lines through 31 delays; every setting is tried
with the test data, and one is chosen. What a try comes to is a parameter.

* `findMax_longest` -- the loop over the results finds a longest run of settings that passed every try;
* `tuning_margin` -- **no setting has more room** to either side than the one that is left in the registers;
* `tuning_passes_iff` -- and it passed every try itself if and only if two neighbours did, or the first setting.
-/

namespace P4Linux.Boot.Tuning

open LongestRun

/-! ## 1. Settings -/

/-- MSPI_LL_DQS_PHASE_x. -/
inductive Phase where
  | deg67_5 | deg78_75 | deg90 | deg101_25
  deriving DecidableEq, Repr, Inhabited

/-- `delayline_config_t`. -/
structure Delayline where
  data : Nat
  dqs : Nat
  deriving DecidableEq, Repr, Inhabited

/-- The phase of the strobe, and the delays of the strobe and of the other pins. -/
structure Regs where
  phase : Phase
  delayline : Delayline
  deriving DecidableEq, Repr

/-- `mspi_timing_get_psram_tuning_phases`. -/
def tuningPhases : List Phase := [.deg67_5, .deg78_75, .deg90, .deg101_25]

/-- `s_test_delayline_config`. -/
def delaylineTable : List Delayline :=
  [⟨0, 15⟩, ⟨0, 14⟩, ⟨0, 13⟩, ⟨0, 12⟩, ⟨0, 11⟩, ⟨0, 10⟩, ⟨0, 9⟩, ⟨0, 8⟩, ⟨0, 7⟩, ⟨0, 6⟩, ⟨0, 5⟩, ⟨0, 4⟩, ⟨0, 3⟩,
    ⟨0, 2⟩, ⟨0, 1⟩, ⟨0, 0⟩, ⟨1, 0⟩, ⟨2, 0⟩, ⟨3, 0⟩, ⟨4, 0⟩, ⟨5, 0⟩, ⟨6, 0⟩, ⟨7, 0⟩, ⟨8, 0⟩, ⟨9, 0⟩, ⟨10, 0⟩, ⟨11, 0⟩,
    ⟨12, 0⟩, ⟨13, 0⟩, ⟨14, 0⟩, ⟨15, 0⟩]

/-- MSPI_TIMING_DELAYLINE_TEST_NUMS. -/
def delaylineTestNums : Nat := 100

/-! ## 2. mspi_timing_tuning.c -/

/-- `s_sweep_for_success_sample_points`: how many tries of a setting read the test data back. -/
def sweep (testNums : Nat) (good : Nat → Nat → Bool) (idx : Nat) : Nat := (List.range testNums).countP (good idx)

/-- The loop of `s_find_max_consecutive_success_points`, from point `i` on with `n` to go. -/
def findLoop (testNums : Nat) (array : Nat → Nat) : Nat → Nat → Nat → Nat → Nat → Nat × Nat × Nat
  | 0, _, max, matchNum, last => (max, matchNum, last)
  | n + 1, i, max, matchNum, last =>
    if array i = testNums then findLoop testNums array n (i + 1) max (matchNum + 1) last
    else if matchNum > max then findLoop testNums array n (i + 1) matchNum 0 (i - 1)
    else findLoop testNums array n (i + 1) max 0 last

/-- `s_find_max_consecutive_success_points`: `*out_length` and `*out_end_index`. -/
def findMax (testNums : Nat) (array : Nat → Nat) (size : Nat) : Nat × Nat :=
  let (max, matchNum, last) := findLoop testNums array size 0 0 0 0
  if matchNum > max then (matchNum, size - 1) else (max, last)

/-- `mspi_timing_psram_select_best_tuning_phase`; `end - consecutive_length` may go below 0 on its way. -/
def selectPhase (length last : Nat) : Nat := if length = 0 then 0 else (last + 2 ^ 32 - length + 1) % 2 ^ 32

/-- `mspi_timing_psram_select_best_tuning_delayline`. -/
def selectDelayline (length last : Nat) : Nat := if length ≤ 1 then 0 else last - length / 2

/-- What the sweeps find: `phaseTry` of the setting with a phase, `delayTry` of one with a delay. -/
structure Board where
  phaseTry : Phase → Nat → Bool
  delayTry : Regs → Nat → Bool

/-- `s_psram_best_phase`. -/
def bestPhase (b : Board) : Phase :=
  let result := findMax 1 (sweep 1 fun id => b.phaseTry tuningPhases[id]!) tuningPhases.length
  tuningPhases[selectPhase result.1 result.2]!

/-- The setting `id` of the second sweep. -/
def setting (b : Board) (id : Nat) : Regs := ⟨bestPhase b, delaylineTable[id]!⟩

/-- The delay that is chosen. -/
def bestId (b : Board) : Nat :=
  let result := findMax delaylineTestNums (sweep delaylineTestNums fun id => b.delayTry (setting b id))
    delaylineTable.length
  selectDelayline result.1 result.2

/-- `mspi_timing_psram_tuning`: the registers that are left. -/
def psramTuning (b : Board) : Regs := setting b (bestId b)

/-! ## 3. The search -/

theorem sweep_eq_iff {testNums : Nat} {good : Nat → Nat → Bool} {idx : Nat} :
    sweep testNums good idx = testNums ↔ ∀ t < testNums, good idx t = true := by
  have hlen : (List.range testNums).length = testNums := List.length_range
  unfold sweep
  conv_lhs => rhs; rw [← hlen]
  rw [List.countP_eq_length]
  simp

theorem findLoop_found {testNums : Nat} {array : Nat → Nat} {n i max matchNum last : Nat}
    (h : Found (fun j => array j = testNums) i max matchNum last) :
    Found (fun j => array j = testNums) (i + n) (findLoop testNums array n i max matchNum last).1
      (findLoop testNums array n i max matchNum last).2.1 (findLoop testNums array n i max matchNum last).2.2 := by
  induction n generalizing i max matchNum last with
  | zero => exact h
  | succ n ih =>
    have hi : i + (n + 1) = i + 1 + n := by omega
    rw [findLoop, hi]
    split
    · rename_i hp
      exact ih (found_good h hp)
    · rename_i hp
      have hbad := found_bad h hp
      split <;> rename_i hc
      · rw [if_pos hc] at hbad
        exact ih hbad
      · rw [if_neg hc] at hbad
        exact ih hbad

/-- **The search** finds a longest run. -/
theorem findMax_longest (testNums : Nat) (array : Nat → Nat) (size : Nat) :
    Longest (fun j => array j = testNums) size (findMax testNums array size).1 (findMax testNums array size).2 := by
  have h := (findLoop_found (n := size) (found_start (p := fun j => array j = testNums))).longest
  rw [Nat.zero_add] at h
  unfold findMax
  split at h <;> rename_i hc
  · simp only [if_pos hc]
    exact h
  · simp only [if_neg hc]
    exact h

/-! ## 4. The choice -/

/-- Every try of the setting `id` reads the test data back. -/
def Passes (b : Board) (id : Nat) : Prop := ∀ t < delaylineTestNums, b.delayTry (setting b id) t = true

theorem delay_longest (b : Board) : ∃ len last, Longest (Passes b) 31 len last ∧
    bestId b = if len ≤ 1 then 0 else last - len / 2 := by
  have h := findMax_longest delaylineTestNums (sweep delaylineTestNums fun id => b.delayTry (setting b id)) 31
  have hp : (fun j => sweep delaylineTestNums (fun id => b.delayTry (setting b id)) j = delaylineTestNums) = Passes b := by
    funext j
    exact propext sweep_eq_iff
  rw [hp] at h
  exact ⟨_, _, h, rfl⟩

/-- **The setting that is left has the most room**: where every setting within `r` of some setting passes, every one
    within `r` of it does. -/
theorem tuning_margin (b : Board) {c r : Nat} (hr : 0 < r) (h : Margin (Passes b) 31 c r) :
    Margin (Passes b) 31 (bestId b) r := by
  obtain ⟨len, last, hl, hbest⟩ := delay_longest b
  have hle := hl.margin_le h
  rw [hbest, if_neg (by omega)]
  exact (hl.margin_mid (by omega)).mono (by omega)

/-- Only the settings around the middle of the table work. -/
def middle : Board := ⟨fun _ _ => true, fun r _ => r.delayline.data ≤ 2 && r.delayline.dqs ≤ 2⟩

theorem tuning_margin_middle : Margin (Passes middle) 31 (bestId middle) 2 := by
  have hpass : ∀ i, 13 ≤ i → i ≤ 17 → Passes middle i := by
    intro i hi hi' t _
    obtain rfl | rfl | rfl | rfl | rfl : i = 13 ∨ i = 14 ∨ i = 15 ∨ i = 16 ∨ i = 17 := by omega
    all_goals rfl
  exact tuning_margin middle (c := 15) (by decide) ⟨by decide, by decide, fun i hi hi' => hpass i hi hi'⟩

/-- **The setting that is left passed** if and only if two neighbours did, or the first one: one good setting alone
    is not taken. -/
theorem tuning_passes_iff (b : Board) : (∀ t < delaylineTestNums, b.delayTry (psramTuning b) t = true) ↔
    (∃ i, i + 1 < 31 ∧ Passes b i ∧ Passes b (i + 1)) ∨ Passes b 0 := by
  obtain ⟨len, last, hl, hbest⟩ := delay_longest b
  change Passes b (bestId b) ↔ _
  rw [hbest]
  by_cases hlen : len ≤ 1
  · rw [if_pos hlen]
    constructor
    · exact .inr
    · rintro (⟨i, hi, h1, h2⟩ | h)
      · have hmost := hl.most i 2 ⟨by omega, fun j hj hj' => by
          obtain rfl | rfl : j = i ∨ j = i + 1 := by omega
          · exact h1
          · exact h2⟩
        omega
      · exact h
  · rw [if_neg hlen]
    have hmid := hl.margin_mid (by omega)
    obtain ⟨hn, hall⟩ := hl.run (by omega)
    have hfit := hl.fits (by omega)
    refine iff_of_true (hmid.2.2 _ (by omega) (by omega)) (.inl ⟨last + 1 - len, by omega, ?_, ?_⟩)
    · exact hall _ (by omega) (by omega)
    · exact hall _ (by omega) (by omega)

/-- **The phase that is left passed** if and only if any did. -/
theorem phase_passes_iff (b : Board) :
    b.phaseTry (bestPhase b) 0 = true ↔ ∃ p ∈ tuningPhases, b.phaseTry p 0 = true := by
  have h := findMax_longest 1 (sweep 1 fun id => b.phaseTry tuningPhases[id]!) 4
  have hp : (fun j => sweep 1 (fun id => b.phaseTry tuningPhases[id]!) j = 1) =
      fun j => b.phaseTry tuningPhases[j]! 0 = true := by
    funext j
    refine propext (sweep_eq_iff.trans ⟨fun h => h 0 (by decide), fun h t ht => ?_⟩)
    rwa [show t = 0 by omega]
  rw [hp] at h
  have hbest : bestPhase b = tuningPhases[selectPhase (findMax 1 (sweep 1 fun id => b.phaseTry tuningPhases[id]!) 4).1
      (findMax 1 (sweep 1 fun id => b.phaseTry tuningPhases[id]!) 4).2]! := rfl
  generalize findMax 1 (sweep 1 fun id => b.phaseTry tuningPhases[id]!) 4 = result at h hbest
  obtain ⟨len, last⟩ := result
  have hmem : ∀ i < 4, tuningPhases[i]! ∈ tuningPhases := by decide
  have hidx : ∀ p ∈ tuningPhases, ∃ i < 4, tuningPhases[i]! = p := by decide
  rw [hbest]
  rcases Nat.eq_zero_or_pos len with rfl | hpos
  · -- no phase passes
    have hnone : ∀ i < 4, ¬ b.phaseTry tuningPhases[i]! 0 = true := by
      intro i hi hpass
      have hmost := h.most i 1 ⟨by omega, fun j hj hj' => by rwa [show j = i by omega]⟩
      omega
    refine iff_of_false (hnone 0 (by decide)) ?_
    rintro ⟨p, hp, hpass⟩
    obtain ⟨i, hi, rfl⟩ := hidx p hp
    exact hnone i hi hpass
  · obtain ⟨hn, hall⟩ := h.run hpos
    have hfit := h.fits hpos
    have hfirst : selectPhase len last = last + 1 - len := by
      rw [selectPhase, if_neg (by omega)]
      omega
    have hpass := hall (last + 1 - len) (by omega) (by omega)
    rw [hfirst]
    exact iff_of_true hpass ⟨_, hmem _ (by omega), hpass⟩

end P4Linux.Boot.Tuning
