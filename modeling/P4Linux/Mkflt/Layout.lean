import Mathlib.Data.List.Pairwise
import P4Linux.Mkflt.Words

/-!
# The layout in exact arithmetic

`place` computes with wrapping integers. Here is the same walk in natural numbers, and when the two
agree.

* `layout_eq`, `base_layout_iff` -- the two passes of `place` are one walk over `loadOrder`;
* `exactAlign`, `exactEnd` -- that walk over natural numbers;
* `Fits` -- the wrapping one never leaves the non-negative half: every `image_len + a - 1` stays below
  `2 ^ (w - 1)`, and the image ends at or below `lastKey`, the last key the chunked writer reaches
  before its own `k + 199` wraps;
* `bases`, `walkEnd` -- the walk of the script itself, and where it ends in natural numbers, also where
  an alignment wraps (`alignUp_roundUp`);
* `tiled_of_walk` -- if that is at or below `lastKey`, as it is under `Fits` (`tiled_layout`), the
  sections are pairwise disjoint and inside the image.
-/

namespace P4Linux.Mkflt

open Lua

variable {w : Nat}

/-! ## 1. The order of placement -/

/-- The sections `place` takes, in the order it takes them: contents first, NOBITS after. -/
def loadOrder (sec : List (Section w)) : List (Section w) :=
  sec.filter (fun s => s.loads && s.nobits == false) ++ sec.filter (fun s => s.loads && s.nobits == true)

def placeOne (l : Layout w) (s : Section w) : Layout w :=
  ⟨fun n => if n = s.index then some (alignUp l.imageLen s.align) else l.base n,
    alignUp l.imageLen s.align + s.size⟩

theorem place_eq (wantNobits : Bool) (sec : List (Section w)) (l : Layout w) :
    place wantNobits sec l =
      (sec.filter fun s => s.loads && s.nobits == wantNobits).foldl placeOne l := by
  unfold place
  rw [List.foldl_filter]
  rfl

theorem layout_eq (sec : List (Section w)) :
    layout sec = (loadOrder sec).foldl placeOne ⟨fun _ => none, 0⟩ := by
  unfold layout loadOrder
  rw [place_eq, place_eq, List.foldl_append]

theorem mem_loadOrder {sec : List (Section w)} {s : Section w} :
    s ∈ loadOrder sec ↔ s ∈ sec ∧ s.loads = true := by
  unfold loadOrder
  cases h : s.nobits <;> simp [List.mem_append, List.mem_filter, h]

/-- A section is placed once: no index occurs twice in the order of placement. -/
theorem nodup_loadOrder {sec : List (Section w)} (h : (sec.map (·.index)).Nodup) :
    ((loadOrder sec).map (·.index)).Nodup := by
  unfold loadOrder
  rw [List.map_append, List.nodup_append]
  refine ⟨h.sublist (List.filter_sublist.map _), h.sublist (List.filter_sublist.map _), ?_⟩
  intro i hi j hj hij
  obtain ⟨s, hs, rfl⟩ := List.mem_map.mp hi
  obtain ⟨t, ht, rfl⟩ := List.mem_map.mp hj
  rw [List.mem_filter] at hs ht
  have e : s = t := List.inj_on_of_nodup_map h hs.1 ht.1 hij
  subst e
  simp_all

theorem base_foldl_placeOne {rest : List (Section w)} {l : Layout w} {n : Nat} :
    ((rest.foldl placeOne l).base n).isSome = true ↔
      (l.base n).isSome = true ∨ ∃ s ∈ rest, s.index = n := by
  induction rest generalizing l with
  | nil => simp
  | cons s rest ih =>
    rw [List.foldl_cons, ih]
    by_cases hn : n = s.index
    · simp [placeOne, hn]
    · simp [placeOne, hn, Ne.symm hn]

/-- **The sections with an entry in `base`** are the ones `place` takes, wrapped or not. -/
theorem base_layout_isSome {sec : List (Section w)} {n : Nat} :
    ((layout sec).base n).isSome = true ↔ ∃ s ∈ sec, s.index = n ∧ s.loads = true := by
  rw [layout_eq, base_foldl_placeOne]
  simp only [mem_loadOrder, Option.isSome_none, Bool.false_eq_true, false_or]
  exact ⟨fun ⟨s, hs, e⟩ => ⟨s, hs.1, e, hs.2⟩, fun ⟨s, hs, e, hl⟩ => ⟨s, ⟨hs, hl⟩, e⟩⟩

/-! ## 2. The exact walk -/

/-- `align_up` without the wrap. -/
def exactAlign (a : BitVec w) (len : Nat) : Nat :=
  if 1 < a.toInt then (len + a.toNat - 1) / a.toNat * a.toNat else len

/-- Where the sections end that are placed from length `len` on. -/
def exactEnd : Nat → List (Section w) → Nat
  | len, [] => len
  | len, s :: rest => exactEnd (exactAlign s.align len + s.size.toNat) rest

/-- The last key below `2 ^ (v - 1)` at which a chunk of 200 ends. -/
def lastKey (v : Nat) : Nat := (2 ^ (v - 1) - 1) / 200 * 200

def fitsFrom (v : Nat) : Nat → List (Section w) → Bool
  | len, [] => decide (len ≤ lastKey v)
  | len, s :: rest =>
    (decide (s.align.toInt ≤ 1) || decide (len + s.align.toNat - 1 < 2 ^ (v - 1))) &&
      fitsFrom v (exactAlign s.align len + s.size.toNat) rest

/-- **The layout never leaves the non-negative `v`-bit integers.** -/
def FitsAt (v : Nat) (sec : List (Section w)) : Prop := fitsFrom v 0 (loadOrder sec) = true

instance (v : Nat) (sec : List (Section w)) : Decidable (FitsAt v sec) :=
  inferInstanceAs (Decidable (_ = true))

/-- The layout never leaves the non-negative integers of its own width. -/
abbrev Fits (sec : List (Section w)) : Prop := FitsAt w sec

theorem lastKey_lt : lastKey w < 2 ^ (w - 1) := by
  have h : 0 < 2 ^ (w - 1) := Nat.two_pow_pos _
  have := Nat.div_mul_le_self (2 ^ (w - 1) - 1) 200
  unfold lastKey
  omega

theorem le_exactAlign (a : BitVec w) (len : Nat) : len ≤ exactAlign a len := by
  unfold exactAlign
  split
  · rename_i h
    have ha : 0 < a.toNat := by
      rcases Nat.eq_zero_or_pos a.toNat with e | e
      · rw [BitVec.toInt_eq_toNat_of_lt (by rw [e]; exact Nat.two_pow_pos _), e] at h
        omega
      · exact e
    have := Nat.lt_div_mul_add (a := len + a.toNat - 1) ha
    omega
  · exact le_refl len

theorem exactEnd_of_fits {v len : Nat} {l : List (Section w)} (h : fitsFrom v len l = true) :
    exactEnd len l ≤ lastKey v := by
  induction l generalizing len with
  | nil => simpa [fitsFrom, exactEnd] using h
  | cons s rest ih =>
    simp only [fitsFrom, Bool.and_eq_true] at h
    exact ih h.2

/-! ## 3. The wrapping walk is the exact one -/

theorem toInt_of_lt {x : BitVec w} (hw : 32 ≤ w) (h : x.toNat < 2 ^ (w - 1)) : x.toInt = x.toNat := by
  apply BitVec.toInt_eq_toNat_of_lt
  have e : 2 ^ w = 2 * 2 ^ (w - 1) := by rw [← Nat.pow_succ']; congr 1; omega
  omega

theorem toNat_lt_of_toInt_nonneg {x : BitVec w} (h : 0 ≤ x.toInt) : x.toNat < 2 ^ (w - 1) := by
  cases w with
  | zero => have := x.isLt; omega
  | succ n =>
    rw [BitVec.toInt_eq_toNat_cond] at h
    have := x.isLt
    rw [Nat.add_sub_cancel]
    split at h <;> omega

theorem idiv_of_lt (hw : 32 ≤ w) {a b : BitVec w} (ha : a.toNat < 2 ^ (w - 1)) (hb : b.toNat < 2 ^ (w - 1)) :
    idiv a b = BitVec.ofNat w (a.toNat / b.toNat) := by
  unfold idiv
  rw [toInt_of_lt hw ha, toInt_of_lt hw hb, Int.fdiv_eq_ediv_of_nonneg _ (by omega)]
  exact BitVec.ofInt_natCast w _

theorem two_pow_pred_lt (hw : 32 ≤ w) : 2 ^ (w - 1) < 2 ^ w :=
  Nat.pow_lt_pow_right (by omega) (by omega)

theorem slt_one (hw : 32 ≤ w) (a : BitVec w) : (1 : BitVec w).slt a = decide (1 < a.toInt) := by
  have e : (1 : BitVec w).toInt = 1 := BitVec.toInt_one (by omega)
  rw [BitVec.slt_eq_decide, e]

theorem slt_zero (a : BitVec w) : (0 : BitVec w).slt a = decide (0 < a.toInt) := by
  have e : (0 : BitVec w).toInt = 0 := BitVec.toInt_zero
  rw [BitVec.slt_eq_decide, e]

theorem toNat_one (hw : 32 ≤ w) : (1 : BitVec w).toNat = 1 :=
  Nat.mod_eq_of_lt (Nat.one_lt_two_pow (by omega))

theorem alignUp_exact (hw : 32 ≤ w) {len a : BitVec w}
    (h : 1 < a.toInt → len.toNat + a.toNat - 1 < 2 ^ (w - 1)) :
    (alignUp len a).toNat = exactAlign a len.toNat := by
  have h2 := two_pow_pred_lt hw
  unfold alignUp exactAlign
  rw [slt_one hw]
  by_cases ha : 1 < a.toInt
  · have hlt := h ha
    have ha0 := toNat_lt_of_toInt_nonneg (x := a) (by omega)
    have hapos : 1 < a.toNat := by
      rw [toInt_of_lt hw ha0] at ha
      omega
    have hsum : (len + a - 1).toNat = len.toNat + a.toNat - 1 := by
      have hadd : (len + a).toNat = len.toNat + a.toNat := BitVec.toNat_add_of_lt (by omega)
      rw [BitVec.toNat_sub_of_le (by rw [BitVec.le_def, hadd, toNat_one hw]; omega), hadd,
        toNat_one hw]
    have hle := Nat.div_mul_le_self (len.toNat + a.toNat - 1) a.toNat
    have hdl := Nat.div_le_self (len.toNat + a.toNat - 1) a.toNat
    rw [if_pos (decide_eq_true ha), if_pos ha, BitVec.toNat_mul, idiv_of_lt hw (by omega) ha0, hsum,
      BitVec.toNat_ofNat, Nat.mod_eq_of_lt (lt_of_le_of_lt hdl (by omega)),
      Nat.mod_eq_of_lt (by omega)]
  · rw [if_neg (by simpa using ha), if_neg ha]

/-! ## 4. The walk of the script -/

/-- The sections with the bases that they are given. -/
def bases : BitVec w → List (Section w) → List (Section w × BitVec w)
  | _, [] => []
  | len, s :: rest => (s, alignUp len s.align) :: bases (alignUp len s.align + s.size) rest

def lenAfter (len : BitVec w) (l : List (Section w)) : BitVec w :=
  l.foldl (fun len s => alignUp len s.align + s.size) len

theorem bases_fst (len : BitVec w) (l : List (Section w)) : (bases len l).map Prod.fst = l := by
  induction l generalizing len with
  | nil => rfl
  | cons s rest ih => exact congrArg (s :: ·) (ih _)

theorem bases_append (len : BitVec w) (l l' : List (Section w)) :
    bases len (l ++ l') = bases len l ++ bases (lenAfter len l) l' := by
  induction l generalizing len with
  | nil => rfl
  | cons s rest ih => exact congrArg (_ :: ·) (ih _)

/-- **`place` gives each section the base of the walk**, wrapped or not. -/
theorem placed_bases (rest : List (Section w)) (l : Layout w) (hnd : (rest.map (·.index)).Nodup) :
    (rest.foldl placeOne l).imageLen = lenAfter l.imageLen rest ∧
      (∀ p ∈ bases l.imageLen rest, (rest.foldl placeOne l).base p.1.index = some p.2) ∧
      ∀ n, (∀ s ∈ rest, s.index ≠ n) → (rest.foldl placeOne l).base n = l.base n := by
  induction rest generalizing l with
  | nil => exact ⟨rfl, fun p hp => (by cases hp), fun n _ => rfl⟩
  | cons s rest ih =>
    rw [List.map_cons, List.nodup_cons] at hnd
    obtain ⟨ih1, ih2, ih3⟩ := ih (placeOne l s) hnd.2
    refine ⟨ih1, fun p hp => ?_, fun n hn => ?_⟩
    · rcases List.mem_cons.mp hp with rfl | hp
      · rw [List.foldl_cons, ih3 _ fun t ht e => hnd.1 (List.mem_map.mpr ⟨t, ht, e⟩)]
        exact if_pos rfl
      · exact ih2 p hp
    · rw [List.foldl_cons, ih3 n fun t ht => hn t (List.mem_cons_of_mem s ht)]
      exact if_neg (hn s List.mem_cons_self).symm

/-- A base of the layout is one of the walk. -/
theorem base_layout_iff {sec : List (Section w)} (hnd : (sec.map (·.index)).Nodup) {s : Section w}
    (hs : s ∈ sec) {b : BitVec w} :
    (layout sec).base s.index = some b ↔ (s, b) ∈ bases 0 (loadOrder sec) := by
  obtain ⟨-, hbase, hother⟩ := placed_bases (loadOrder sec) ⟨fun _ => none, 0⟩ (nodup_loadOrder hnd)
  rw [layout_eq]
  constructor
  · intro hb
    by_cases hl : s ∈ loadOrder sec
    · rw [← bases_fst 0 (loadOrder sec)] at hl
      obtain ⟨p, hp, rfl⟩ := List.mem_map.mp hl
      rw [hbase p hp] at hb
      obtain rfl := Option.some.inj hb
      exact hp
    · rw [hother s.index fun t ht e => ?_] at hb
      · cases hb
      · have e' := List.inj_on_of_nodup_map hnd (mem_loadOrder.mp ht).1 hs e
        exact hl (e' ▸ ht)
  · exact fun hp => hbase _ hp

theorem imageLen_layout {sec : List (Section w)} (hnd : (sec.map (·.index)).Nodup) :
    (layout sec).imageLen = lenAfter 0 (loadOrder sec) := by
  rw [layout_eq]
  exact (placed_bases (loadOrder sec) ⟨fun _ => none, 0⟩ (nodup_loadOrder hnd)).1

/-- `image_len` rounded up; where `image_len + a - 1` wraps, the result is a multiple of `a` below zero. -/
def roundUp (a : BitVec w) (len : Nat) : Nat :=
  if 1 < a.toInt then
    if len + a.toNat - 1 < 2 ^ (w - 1) then (len + a.toNat - 1) / a.toNat * a.toNat
    else len + (2 ^ w - len) % a.toNat
  else len

def walkEnd : Nat → List (Section w) → Nat
  | len, [] => len
  | len, s :: rest => walkEnd (roundUp s.align len + s.size.toNat) rest

theorem le_roundUp (a : BitVec w) (len : Nat) : len ≤ roundUp a len := by
  have h := le_exactAlign a len
  unfold exactAlign at h
  unfold roundUp
  split
  · rename_i ha
    rw [if_pos ha] at h
    split
    · exact h
    · exact Nat.le_add_right _ _
  · exact le_refl len

theorem le_walkEnd (len : Nat) (l : List (Section w)) : len ≤ walkEnd len l := by
  induction l generalizing len with
  | nil => exact le_refl len
  | cons s rest ih =>
    have h1 := le_roundUp s.align len
    have h2 := ih (roundUp s.align len + s.size.toNat)
    simp only [walkEnd]
    omega

/-- Floor division rounds a negative number away from zero. -/
theorem fdiv_neg {D A : Nat} (hA : 0 < A) :
    Int.fdiv ((A : Int) - 1 - D) A * A = (D % A : Nat) - (D : Int) := by
  have hsplit : (A : Int) * (D / A : Nat) + (D % A : Nat) = D := by exact_mod_cast Nat.div_add_mod D A
  have hmod : D % A < A := Nat.mod_lt D hA
  have hq : Int.fdiv ((A : Int) - 1 - D) A = -(D / A : Nat) := by
    rw [Int.fdiv_eq_ediv_of_nonneg _ (by omega)]
    have hnum : (A : Int) - 1 - D = (A - 1 - (D % A : Nat)) + A * (-(D / A : Nat)) := by
      rw [Int.mul_neg]
      omega
    rw [hnum, Int.add_mul_ediv_left _ _ (by omega), Int.ediv_eq_zero_of_lt (by omega) (by omega), Int.zero_add]
  rw [hq, Int.neg_mul, Int.mul_comm]
  omega

theorem alignUp_wrapped (hw : 32 ≤ w) {len a : BitVec w} (hlen : len.toNat < 2 ^ (w - 1)) (ha : 1 < a.toInt)
    (hwrap : 2 ^ (w - 1) ≤ len.toNat + a.toNat - 1) :
    (alignUp len a).toNat = len.toNat + (2 ^ w - len.toNat) % a.toNat := by
  have ha0 := toNat_lt_of_toInt_nonneg (x := a) (by omega)
  have h2 : 2 ^ w = 2 * 2 ^ (w - 1) := by rw [← Nat.pow_succ']; congr 1; omega
  have hai : a.toInt = a.toNat := toInt_of_lt hw ha0
  have hsum : (len + a - 1).toInt = (a.toNat : Int) - 1 - (2 ^ w - len.toNat : Nat) := by
    have hadd : (len + a).toNat = len.toNat + a.toNat := BitVec.toNat_add_of_lt (by omega)
    have hnat : (len + a - 1).toNat = len.toNat + a.toNat - 1 := by
      rw [BitVec.toNat_sub_of_le (by rw [BitVec.le_def, hadd, toNat_one hw]; omega), hadd, toNat_one hw]
    rw [BitVec.toInt_eq_toNat_cond, hnat, if_neg (by omega)]
    omega
  have hmul : idiv (len + a - 1) a * a =
      BitVec.ofInt w (((2 ^ w - len.toNat) % a.toNat : Nat) - (2 ^ w - len.toNat : Nat)) := by
    have he : a = BitVec.ofInt w a.toNat := by
      rw [BitVec.ofInt_natCast, BitVec.ofNat_toNat, BitVec.setWidth_eq]
    conv_lhs => rw [idiv, hsum, hai]; arg 2; rw [he]
    rw [← BitVec.ofInt_mul, fdiv_neg (by omega)]
  have hmod : (2 ^ w - len.toNat) % a.toNat < a.toNat := Nat.mod_lt _ (by omega)
  have hle : (2 ^ w - len.toNat) % a.toNat < 2 ^ w - len.toNat := by omega
  unfold alignUp
  rw [slt_one hw, if_pos (decide_eq_true ha), hmul, BitVec.toNat_ofInt]
  generalize (2 ^ w - len.toNat) % a.toNat = m at *
  rw [show ((m : Int) - (2 ^ w - len.toNat : Nat)) = (len.toNat + m : Nat) + (2 ^ w : Nat) * (-1) by omega,
    Int.add_mul_emod_self_left, Int.emod_eq_of_lt (by omega) (by omega)]
  rfl

/-- **The alignment of the script, in natural numbers.** -/
theorem alignUp_roundUp (hw : 32 ≤ w) {len a : BitVec w} (hlen : len.toNat < 2 ^ (w - 1)) :
    (alignUp len a).toNat = roundUp a len.toNat := by
  by_cases hfit : 1 < a.toInt ∧ ¬ len.toNat + a.toNat - 1 < 2 ^ (w - 1)
  · rw [alignUp_wrapped hw hlen hfit.1 (Nat.not_lt.mp hfit.2), roundUp, if_pos hfit.1, if_neg hfit.2]
  · have hexact : (alignUp len a).toNat = exactAlign a len.toNat := alignUp_exact hw fun ha => by
      by_contra hno
      exact hfit ⟨ha, hno⟩
    rw [hexact]
    unfold exactAlign roundUp
    split
    · rw [if_pos (by by_contra hno; exact hfit ⟨‹_›, hno⟩)]
    · rfl

/-- Induction on the walk: it does not go back, so nothing is placed twice. -/
theorem walk_stays (hw : 32 ≤ w) {len : BitVec w} {l : List (Section w)}
    (h : walkEnd len.toNat l ≤ lastKey w) : (lenAfter len l).toNat = walkEnd len.toNat l ∧
      (∀ p ∈ bases len l, len.toNat ≤ p.2.toNat ∧ p.2.toNat + p.1.size.toNat ≤ (lenAfter len l).toNat) ∧
      (bases len l).Pairwise fun p q => p.2.toNat + p.1.size.toNat ≤ q.2.toNat := by
  induction l generalizing len with
  | nil => exact ⟨rfl, fun p hp => (by cases hp), .nil⟩
  | cons s rest ih =>
    have hlast := lastKey_lt (w := w)
    have h2 := two_pow_pred_lt hw
    have hle := le_roundUp s.align len.toNat
    have hend := le_walkEnd (roundUp s.align len.toNat + s.size.toNat) rest
    simp only [walkEnd] at h
    have hbase : (alignUp len s.align).toNat = roundUp s.align len.toNat := alignUp_roundUp hw (by omega)
    have hnext : (alignUp len s.align + s.size).toNat = roundUp s.align len.toNat + s.size.toNat := by
      rw [BitVec.toNat_add_of_lt (by omega), hbase]
    rw [← hnext] at h
    obtain ⟨ih1, ih2, ih3⟩ := ih h
    rw [hnext] at ih1 ih2
    refine ⟨ih1, fun p hp => ?_, .cons (fun q hq => ?_) ih3⟩
    · rcases List.mem_cons.mp hp with rfl | hp
      · show len.toNat ≤ (alignUp len s.align).toNat ∧
          (alignUp len s.align).toNat + s.size.toNat ≤ (lenAfter (alignUp len s.align + s.size) rest).toNat
        omega
      · have hp := ih2 p hp
        exact ⟨by omega, hp.2⟩
    · rw [hbase]
      exact (ih2 q hq).1

/-- Where the roundings fit, the walk is the exact one. -/
theorem walkEnd_exact {len : Nat} {l : List (Section w)} (h : fitsFrom w len l = true) :
    walkEnd len l = exactEnd len l := by
  induction l generalizing len with
  | nil => rfl
  | cons s rest ih =>
    simp only [fitsFrom, Bool.and_eq_true, Bool.or_eq_true, decide_eq_true_eq] at h
    have hround : roundUp s.align len = exactAlign s.align len := by
      unfold roundUp exactAlign
      split
      · rw [if_pos (h.1.resolve_left (by omega))]
      · rfl
    rw [walkEnd, exactEnd, hround]
    exact ih h.2

theorem walkEnd_of_fits {l : List (Section w)} (h : fitsFrom w 0 l = true) : walkEnd 0 l ≤ lastKey w :=
  (walkEnd_exact h).le.trans (exactEnd_of_fits h)

/-! ## 5. Disjoint and inside -/

/-- What a layout owes the rest of the script: the placed sections are the ones that load, each
    inside the image, no two of them touching. -/
structure Tiled (sec : List (Section w)) (l : Layout w) : Prop where
  len : l.imageLen.toNat ≤ lastKey w
  loads : ∀ s ∈ sec, (l.base s.index).isSome = s.loads
  known : ∀ n b, l.base n = some b → ∃ s ∈ sec, s.index = n
  inside : ∀ s ∈ sec, ∀ b, l.base s.index = some b → b.toNat + s.size.toNat ≤ l.imageLen.toNat
  apart : ∀ s ∈ sec, ∀ t ∈ sec, s.index ≠ t.index → ∀ b c, l.base s.index = some b →
    l.base t.index = some c → b.toNat + s.size.toNat ≤ c.toNat ∨ c.toNat + t.size.toNat ≤ b.toNat

/-- What comes out of the walk: the table of `Tiled`, and `.bss` after all contents. -/
theorem tiled_of_walk (hw : 32 ≤ w) {sec : List (Section w)} (h : walkEnd 0 (loadOrder sec) ≤ lastKey w)
    (hnd : (sec.map (·.index)).Nodup) : Tiled sec (layout sec) ∧
      ∀ s ∈ sec, ∀ t ∈ sec, s.nobits = false → t.nobits = true → ∀ b c, (layout sec).base s.index = some b →
        (layout sec).base t.index = some c → b.toNat + s.size.toNat ≤ c.toNat := by
  have hz : (0 : BitVec w).toNat = 0 := BitVec.toNat_zero
  obtain ⟨hlen, hin, hpw⟩ := walk_stays hw (by rw [hz]; exact h : walkEnd (0 : BitVec w).toNat (loadOrder sec) ≤ lastKey w)
  rw [← imageLen_layout hnd] at hlen hin
  rw [hz] at hlen
  have hbase : ∀ {s : Section w} {b : BitVec w}, s ∈ sec → (layout sec).base s.index = some b →
      (s, b) ∈ bases 0 (loadOrder sec) := fun hs hb => (base_layout_iff hnd hs).mp hb
  refine ⟨⟨hlen ▸ h, fun s hs => ?_, fun n b hb => ?_, fun s hs b hb => ?_,
    fun s hs t ht hne b c hb hc => ?_⟩, fun s hs t ht hno hyes b c hb hc => ?_⟩
  · rw [Bool.eq_iff_iff, base_layout_isSome]
    constructor
    · rintro ⟨t, ht, hidx, hloads⟩
      obtain rfl := List.inj_on_of_nodup_map hnd ht hs hidx
      exact hloads
    · exact fun hloads => ⟨s, hs, rfl, hloads⟩
  · obtain ⟨s, hs, hidx, -⟩ := base_layout_isSome.mp (by rw [hb]; rfl : ((layout sec).base n).isSome = true)
    exact ⟨s, hs, hidx⟩
  · exact (hin _ (hbase hs hb)).2
  · have hsymm : Std.Symm fun p q : Section w × BitVec w =>
        p.2.toNat + p.1.size.toNat ≤ q.2.toNat ∨ q.2.toNat + q.1.size.toNat ≤ p.2.toNat := ⟨fun _ _ => Or.symm⟩
    have hpw' : (bases 0 (loadOrder sec)).Pairwise fun p q : Section w × BitVec w =>
        p.2.toNat + p.1.size.toNat ≤ q.2.toNat ∨ q.2.toNat + q.1.size.toNat ≤ p.2.toNat := hpw.imp Or.inl
    exact hpw'.forall (hbase hs hb) (hbase ht hc) fun e => hne (congrArg (·.1.index) e)
  · have hs' := hbase hs hb
    have ht' := hbase ht hc
    rw [loadOrder, bases_append] at hs' ht' hpw
    -- contents come from the first pass, `.bss` from the second
    have hfirst := (List.mem_append.mp hs').resolve_right fun hm => by
      have hm := List.mem_map_of_mem (f := Prod.fst) hm
      rw [bases_fst, List.mem_filter, hno] at hm
      cases hs : s.loads <;> simp [hs] at hm
    have hsecond := (List.mem_append.mp ht').resolve_left fun hm => by
      have hm := List.mem_map_of_mem (f := Prod.fst) hm
      rw [bases_fst, List.mem_filter, hyes] at hm
      cases ht : t.loads <;> simp [ht] at hm
    exact (List.pairwise_append.mp hpw).2.2 _ hfirst _ hsecond

/-- **A layout that fits tiles the image.** -/
theorem tiled_layout (hw : 32 ≤ w) {sec : List (Section w)} (hfit : Fits sec)
    (hnd : (sec.map (·.index)).Nodup) : Tiled sec (layout sec) :=
  (tiled_of_walk hw (walkEnd_of_fits hfit) hnd).1

/-- And ends where the exact walk does. -/
theorem imageLen_exact (hw : 32 ≤ w) {sec : List (Section w)} (hfit : Fits sec)
    (hnd : (sec.map (·.index)).Nodup) : (layout sec).imageLen.toNat = exactEnd 0 (loadOrder sec) := by
  have hz : (0 : BitVec w).toNat = 0 := BitVec.toNat_zero
  have hwalk : walkEnd (0 : BitVec w).toNat (loadOrder sec) ≤ lastKey w := by
    rw [hz]
    exact walkEnd_of_fits hfit
  rw [imageLen_layout hnd, (walk_stays hw hwalk).1, hz]
  exact walkEnd_exact hfit

end P4Linux.Mkflt
