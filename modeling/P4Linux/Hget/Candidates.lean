import Mathlib.Data.List.Induction
import Mathlib.Data.List.Perm.Subperm
import P4Linux.Hget.Connect

/-!
# Which addresses `tcp_connect` tries

* `families_eq` -- the two arrays hold the first `MAX_ADDRS` addresses of each family;
* `Chosen` -- how far the selection is after some slots: from each family what comes first in it;
* `candidates_fair` -- **the cap never shuts out a family**.
-/

namespace P4Linux.Hget

/-! ## 1. Families -/

/-- IPv6 (`true`) or any other family. -/
def AddrInfo.inet6 (ai : AddrInfo) : Bool := decide (ai.family = afInet6)

/-- What the resolver gave of one family, in its order. -/
def ofFamily (v6 : Bool) (res : List AddrInfo) : List AddrInfo := res.filter (·.inet6 == v6)

theorem length_ofFamily (res : List AddrInfo) :
    (ofFamily true res).length + (ofFamily false res).length = res.length := by
  unfold ofFamily
  induction res with
  | nil => rfl
  | cons ai res ih =>
    cases h : ai.inet6 <;> simp only [List.filter_cons, h, List.length_cons, beq_iff_eq, reduceCtorEq,
      if_true, if_false] <;> omega

theorem ofFamily_append (v6 : Bool) (l l' : List AddrInfo) :
    ofFamily v6 (l ++ l') = ofFamily v6 l ++ ofFamily v6 l' := List.filter_append l l'

/-- A list is its two families, shuffled. -/
theorem ofFamily_perm (l : List AddrInfo) : (ofFamily true l ++ ofFamily false l).Perm l := by
  have h : ofFamily false l = l.filter fun ai => !(ai.inet6 == true) :=
    List.filter_congr fun ai _ => by cases ai.inet6 <;> rfl
  rw [h]
  exact List.filter_append_perm _ l

theorem mem_ofFamily {v6 : Bool} {l : List AddrInfo} {ai : AddrInfo} (h : ai ∈ ofFamily v6 l) :
    ai.inet6 = v6 := beq_iff_eq.mp (List.mem_filter.mp h).2

/-- One more entry of the array `fam[f]`. -/
theorem take_snoc {l : List AddrInfo} (ai : AddrInfo) :
    (if (l.take maxAddrs).length < maxAddrs then l.take maxAddrs ++ [ai] else l.take maxAddrs) =
      (l ++ [ai]).take maxAddrs := by
  rw [List.length_take]
  split
  · rw [List.take_of_length_le (by omega), List.take_of_length_le]
    rw [List.length_append, List.length_singleton]
    omega
  · rw [List.take_append_of_le_length (by omega)]

/-- Induction on the resolver's list, from its end. -/
theorem families_eq (res : List AddrInfo) :
    families res = ((ofFamily true res).take maxAddrs, (ofFamily false res).take maxAddrs) := by
  induction res using List.reverseRecOn with
  | nil => rfl
  | append_singleton res ai ih =>
    unfold families at ih ⊢
    rw [List.foldl_append, List.foldl_cons, List.foldl_nil, ih, ofFamily_append, ofFamily_append]
    have h6 : ofFamily true [ai] = if ai.family = afInet6 then [ai] else [] := by
      by_cases h : ai.family = afInet6 <;> simp [ofFamily, AddrInfo.inet6, h]
    have h4 : ofFamily false [ai] = if ai.family = afInet6 then [] else [ai] := by
      by_cases h : ai.family = afInet6 <;> simp [ofFamily, AddrInfo.inet6, h]
    rw [h6, h4]
    by_cases h : ai.family = afInet6
    · rw [if_pos h, if_pos h, if_pos h, List.append_nil, ← take_snoc ai]
      split <;> rfl
    · rw [if_neg h, if_neg h, if_neg h, List.append_nil, ← take_snoc ai]
      split <;> rfl

/-! ## 2. The slots -/

/-- After `slot` rounds for one family and `slot'` for the other: everything up to there, or the cap
    is reached and neither family has less than half of it for want of slots. -/
structure Chosen (a b sel : List AddrInfo) (slot slot' x y : Nat) : Prop where
  six : ofFamily true sel = a.take x
  four : ofFamily false sel = b.take y
  fits : x ≤ a.length ∧ y ≤ b.length ∧ x + y ≤ maxAddrs
  share : x = min slot a.length ∧ y = min slot' b.length ∨
    x + y = maxAddrs ∧ min (maxAddrs / 2) a.length ≤ x ∧ min (maxAddrs / 2) b.length ≤ y

section

variable {a b sel : List AddrInfo} {slot slot' x y : Nat}

theorem Chosen.length (h : Chosen a b sel slot slot' x y) : sel.length = x + y := by
  rw [← length_ofFamily, h.six, h.four, List.length_take, List.length_take, Nat.min_eq_left h.fits.1,
    Nat.min_eq_left h.fits.2.1]

/-- An entry of one family leaves the other alone. -/
theorem ofFamily_getElem {v6 : Bool} {l : List AddrInfo} (h : ∀ ai ∈ l, ai.inet6 = v6) (i : Nat) :
    ofFamily v6 (l[i]?).toList = (l[i]?).toList ∧ ofFamily (!v6) (l[i]?).toList = [] := by
  cases hi : l[i]? with
  | none => exact ⟨rfl, rfl⟩
  | some ai =>
    have hv := h ai (List.mem_of_getElem? hi)
    constructor <;> simp [ofFamily, hv]

theorem take_getElem (l : List AddrInfo) (i : Nat) : l.take i ++ (l[i]?).toList = l.take (i + 1) :=
  (List.take_add_one).symm

/-- A slot of the IPv6 array. -/
theorem Chosen.pick_six (ha : ∀ ai ∈ a, ai.inet6 = true) (h : Chosen a b sel slot slot x y) :
    ∃ x, Chosen a b (pick a slot sel) (slot + 1) slot x y := by
  have hl := h.length
  obtain ⟨h6, h4, hfit, hshare⟩ := h
  unfold pick
  by_cases hlt : sel.length < maxAddrs
  · rw [if_pos hlt]
    have hx : x = min slot a.length ∧ y = min slot b.length := hshare.resolve_right (by omega)
    refine ⟨min (slot + 1) a.length, ?_, ?_, by omega, .inl ⟨rfl, hx.2⟩⟩
    · rw [ofFamily_append, h6, (ofFamily_getElem ha slot).1, hx.1, ← List.take_eq_take_min,
        take_getElem, ← List.take_eq_take_min]
    · rw [ofFamily_append, h4, show ofFamily false _ = [] from (ofFamily_getElem ha slot).2,
        List.append_nil]
  · rw [if_neg hlt]
    refine ⟨x, h6, h4, hfit, .inr ?_⟩
    unfold maxAddrs at *
    omega

/-- A slot of the other array, in the same round. -/
theorem Chosen.pick_four (hb : ∀ ai ∈ b, ai.inet6 = false) (h : Chosen a b sel (slot + 1) slot x y) :
    ∃ y, Chosen a b (pick b slot sel) (slot + 1) (slot + 1) x y := by
  have hl := h.length
  obtain ⟨h6, h4, hfit, hshare⟩ := h
  unfold pick
  by_cases hlt : sel.length < maxAddrs
  · rw [if_pos hlt]
    have hx : x = min (slot + 1) a.length ∧ y = min slot b.length := hshare.resolve_right (by omega)
    refine ⟨min (slot + 1) b.length, ?_, ?_, by omega, .inl ⟨hx.1, rfl⟩⟩
    · rw [ofFamily_append, h6, show ofFamily true _ = [] from (ofFamily_getElem hb slot).2,
        List.append_nil]
    · rw [ofFamily_append, h4, (ofFamily_getElem hb slot).1, hx.2, ← List.take_eq_take_min,
        take_getElem, ← List.take_eq_take_min]
  · rw [if_neg hlt]
    refine ⟨y, h6, h4, hfit, .inr ?_⟩
    unfold maxAddrs at *
    omega

end

/-- Induction on the rounds of the loop over the slots. -/
theorem chosen_slots {a b : List AddrInfo} (ha : ∀ ai ∈ a, ai.inet6 = true)
    (hb : ∀ ai ∈ b, ai.inet6 = false) (n : Nat) :
    ∃ x y, Chosen a b ((List.range n).foldl (fun sel slot => pick b slot (pick a slot sel)) [])
      n n x y := by
  induction n with
  | zero => exact ⟨0, 0, rfl, rfl, by omega, .inl ⟨by omega, by omega⟩⟩
  | succ n ih =>
    obtain ⟨x, y, h⟩ := ih
    rw [List.range_succ, List.foldl_append]
    obtain ⟨x, h⟩ := h.pick_six ha
    obtain ⟨y, h⟩ := h.pick_four hb
    exact ⟨x, y, h⟩

/-! ## 3. The candidates -/

/-- What the candidate list owes the addresses of the resolver. -/
structure Fair (res sel : List AddrInfo) : Prop where
  count : sel.length = min maxAddrs res.length
  /-- no entry of the resolver's list is taken twice -/
  distinct : sel.Subperm res
  /-- of each family the first ones, in the resolver's order -/
  order : ∀ v6, ofFamily v6 sel <+: ofFamily v6 res
  share : ∀ v6, min (ofFamily v6 res).length (maxAddrs / 2) ≤ (ofFamily v6 sel).length

/-- **The candidate cap never shuts out an address family.** -/
theorem candidates_fair (res : List AddrInfo) : Fair res (candidates res) := by
  have ha : ∀ ai ∈ (ofFamily true res).take maxAddrs, ai.inet6 = true := fun ai h =>
    mem_ofFamily (List.mem_of_mem_take h)
  have hb : ∀ ai ∈ (ofFamily false res).take maxAddrs, ai.inet6 = false := fun ai h =>
    mem_ofFamily (List.mem_of_mem_take h)
  obtain ⟨x, y, h⟩ := chosen_slots ha hb maxAddrs
  have hl := h.length
  have hres := length_ofFamily res
  obtain ⟨h6, h4, hfit, hshare⟩ := h
  rw [List.length_take, List.length_take] at hfit hshare
  rw [List.take_take, Nat.min_eq_left (by omega)] at h6 h4
  have hsel : candidates res = (List.range maxAddrs).foldl (fun sel slot =>
      pick ((ofFamily false res).take maxAddrs) slot (pick ((ofFamily true res).take maxAddrs) slot sel))
      [] := by
    unfold candidates
    rw [families_eq]
  rw [← hsel] at hl h6 h4
  refine ⟨?_, ?_, ?_, ?_⟩
  · rw [hl]
    unfold maxAddrs at *
    omega
  · -- the families of the selection are parts of the families of the list
    refine (ofFamily_perm _).symm.subperm.trans (List.Subperm.trans ?_ (ofFamily_perm res).subperm)
    rw [h6, h4]
    exact ((List.take_sublist x _).append (List.take_sublist y _)).subperm
  · intro v6
    cases v6 with
    | true =>
      rw [h6]
      exact List.take_prefix x _
    | false =>
      rw [h4]
      exact List.take_prefix y _
  · intro v6
    unfold maxAddrs at *
    cases v6 with
    | true =>
      rw [h6, List.length_take]
      omega
    | false =>
      rw [h4, List.length_take]
      omega

end P4Linux.Hget
