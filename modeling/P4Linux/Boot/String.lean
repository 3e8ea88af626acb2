import Mathlib.Data.List.Range
import Mathlib.Data.BitVec
import P4Linux.Lib.Stores

/-!
# p4_string.c

`memcpy` and `memmove` of `bootloader/p4/p4_string.c`. Pointers and `size_t` have 32 bits and wrap; the loops
are `while (n--)`.

* `memmove_moved` -- **`memmove`** copies as if through a temporary, however the ranges overlap;
* `memcpy_moved` -- so does `memcpy`, unless the destination starts inside the source.
-/

namespace P4Linux.Boot

abbrev Addr := BitVec 32
abbrev Bytes := Addr → UInt8

/-! ## 1. The functions -/

/-- `while (n--) { *d++ = *s++; }` -/
def copyUp (m : Bytes) (d s : Addr) : Nat → Bytes
  | 0 => m
  | n + 1 => copyUp (Function.update m d (m s)) (d + 1) (s + 1) n

/-- `while (n--) { *--d = *--s; }` -/
def copyDown (m : Bytes) (d s : Addr) : Nat → Bytes
  | 0 => m
  | n + 1 => copyDown (Function.update m (d - 1) (m (s - 1))) (d - 1) (s - 1) n

def memcpy (m : Bytes) (dst src n : BitVec 32) : Addr × Bytes := (dst, copyUp m dst src n.toNat)

def memmove (m : Bytes) (dst src n : BitVec 32) : Addr × Bytes :=
  if dst = src ∨ n = 0 then (dst, m)
  else if dst < src then (dst, copyUp m dst src n.toNat)
  else (dst, copyDown m (dst + n) (src + n) n.toNat)

/-! ## 2. The cells in the order of the loops -/

/-- The bytes of a range and where they come from, upwards. -/
def cells (d s : Addr) (n : Nat) : List (Addr × Addr) :=
  (List.range n).map fun i => (d + BitVec.ofNat 32 i, s + BitVec.ofNat 32 i)

theorem add_ofNat_succ (p : Addr) (i : Nat) : p + BitVec.ofNat 32 (i + 1) = p + 1 + BitVec.ofNat 32 i := by
  rw [BitVec.ofNat_add, BitVec.add_assoc]
  exact congrArg (p + ·) (BitVec.add_comm _ _)

/-- The last step of a pointer that went up. -/
theorem add_ofNat_succ_sub_one (p : Addr) (i : Nat) :
    p + BitVec.ofNat 32 (i + 1) - 1 = p + BitVec.ofNat 32 i := by
  rw [BitVec.ofNat_add, ← BitVec.add_assoc]
  exact BitVec.add_sub_cancel _ _

theorem copyUp_eq (m : Bytes) (d s : Addr) (n : Nat) : copyUp m d s n = Stores.move m (cells d s n) := by
  induction n generalizing m d s with
  | zero => rfl
  | succ n ih =>
    have hcells : cells d s (n + 1) = (d, s) :: cells (d + 1) (s + 1) n := by
      unfold cells
      rw [List.range_succ_eq_map, List.map_cons, List.map_map]
      refine congrArg₂ _ (by simp) (List.map_congr_left fun i _ => ?_)
      exact Prod.ext (add_ofNat_succ d i) (add_ofNat_succ s i)
    rw [hcells, Stores.move_cons, ← ih]
    rfl

theorem copyDown_eq (m : Bytes) (d s : Addr) (n : Nat) :
    copyDown m (d + BitVec.ofNat 32 n) (s + BitVec.ofNat 32 n) n = Stores.move m (cells d s n).reverse := by
  induction n generalizing m with
  | zero => rfl
  | succ n ih =>
    have hcells : (cells d s (n + 1)).reverse =
        (d + BitVec.ofNat 32 n, s + BitVec.ofNat 32 n) :: (cells d s n).reverse := by
      unfold cells
      rw [List.range_succ, List.map_append, List.reverse_append]
      rfl
    rw [hcells, Stores.move_cons, ← ih, copyDown, add_ofNat_succ_sub_one, add_ofNat_succ_sub_one]

/-! ## 3. What they do -/

/-- `n` bytes from `p` on end in the address space. -/
def Fits (p n : BitVec 32) : Prop := p.toNat + n.toNat ≤ 2 ^ 32

instance (p n : BitVec 32) : Decidable (Fits p n) := inferInstanceAs (Decidable (_ ≤ _))

/-- As if the bytes had all been read before any was written. -/
structure Moved (m : Bytes) (dst src n : BitVec 32) (m' : Bytes) : Prop where
  bytes : ∀ i < n.toNat, m' (dst + BitVec.ofNat 32 i) = m (src + BitVec.ofNat 32 i)
  rest : ∀ a : Addr, a.toNat < dst.toNat ∨ dst.toNat + n.toNat ≤ a.toNat → m' a = m a

theorem toNat_add_ofNat {p n : BitVec 32} (h : Fits p n) {i : Nat} (hi : i < n.toNat) :
    (p + BitVec.ofNat 32 i).toNat = p.toNat + i := by
  unfold Fits at h
  rw [BitVec.toNat_add, BitVec.toNat_ofNat]
  omega

section

variable {m : Bytes} {dst src n : BitVec 32}

theorem mem_cells {c : Addr × Addr} {k : Nat} : c ∈ cells dst src k ↔
    ∃ i < k, (dst + BitVec.ofNat 32 i, src + BitVec.ofNat 32 i) = c := by
  simp [cells]

/-- A pass over the cells, in either order, is a move if no cell is read after it was written. -/
theorem moved_of_readFirst (hd : Fits dst n) {order : List (Addr × Addr)}
    (horder : order = cells dst src n.toNat ∨ order = (cells dst src n.toNat).reverse)
    (hread : Stores.ReadFirst order) : Moved m dst src n (Stores.move m order) := by
  have hmem : ∀ c, c ∈ order ↔ c ∈ cells dst src n.toNat := by
    rcases horder with rfl | rfl
    · exact fun _ => Iff.rfl
    · exact fun _ => List.mem_reverse
  have hup : (cells dst src n.toNat).Pairwise fun c c' => c.1 ≠ c'.1 := by
    unfold cells
    rw [List.pairwise_map]
    refine List.pairwise_lt_range.imp_of_mem fun {i j} hi hj hlt h => ?_
    have hi' := toNat_add_ofNat hd (List.mem_range.mp hi)
    have hj' := toNat_add_ofNat hd (List.mem_range.mp hj)
    have heq := congrArg BitVec.toNat h
    dsimp only at heq
    omega
  have honce : order.Pairwise fun c c' => c.1 ≠ c'.1 := by
    rcases horder with rfl | rfl
    · exact hup
    · exact List.pairwise_reverse.mpr (hup.imp fun h => h.symm)
  refine ⟨fun i hi => ?_, fun a ha => ?_⟩
  · exact Stores.move_of_mem m hread honce ((hmem _).mpr (mem_cells.mpr ⟨i, hi, rfl⟩))
  · refine Stores.move_of_notMem m fun c hc h => ?_
    obtain ⟨i, hi, rfl⟩ := mem_cells.mp ((hmem c).mp hc)
    have hi' := toNat_add_ofNat hd hi
    have heq := congrArg BitVec.toNat h
    dsimp only at heq
    omega

theorem copyUp_moved (hd : Fits dst n) (hs : Fits src n)
    (h : dst.toNat ≤ src.toNat ∨ src.toNat + n.toNat ≤ dst.toNat) :
    Moved m dst src n (copyUp m dst src n.toNat) := by
  rw [copyUp_eq]
  refine moved_of_readFirst hd (.inl rfl) ?_
  unfold Stores.ReadFirst cells
  rw [List.pairwise_map]
  refine List.pairwise_lt_range.imp_of_mem fun {i j} hi hj hlt he => ?_
  have hi' := toNat_add_ofNat hd (List.mem_range.mp hi)
  have hj' := toNat_add_ofNat hs (List.mem_range.mp hj)
  have heq := congrArg BitVec.toNat he
  rw [List.mem_range] at hi hj
  dsimp only at heq
  omega

theorem copyDown_moved (hd : Fits dst n) (hs : Fits src n) (h : src.toNat < dst.toNat) :
    Moved m dst src n (copyDown m (dst + n) (src + n) n.toNat) := by
  have hdown := copyDown_eq m dst src n.toNat
  rw [BitVec.ofNat_toNat, BitVec.setWidth_eq] at hdown
  rw [hdown]
  refine moved_of_readFirst hd (.inr rfl) ?_
  unfold Stores.ReadFirst cells
  rw [List.pairwise_reverse, List.pairwise_map]
  refine List.pairwise_lt_range.imp_of_mem fun {i j} hi hj hlt he => ?_
  have hi' := toNat_add_ofNat hs (List.mem_range.mp hi)
  have hj' := toNat_add_ofNat hd (List.mem_range.mp hj)
  have heq := congrArg BitVec.toNat he
  dsimp only at heq
  omega

/-- **`memmove`** copies as if through a temporary, however the ranges overlap. -/
theorem memmove_moved (hd : Fits dst n) (hs : Fits src n) :
    (memmove m dst src n).1 = dst ∧ Moved m dst src n (memmove m dst src n).2 := by
  unfold memmove
  split
  · rename_i h
    refine ⟨rfl, fun i hi => ?_, fun a _ => rfl⟩
    rcases h with rfl | rfl
    · rfl
    · exact absurd hi (Nat.not_lt_zero i)
  · rename_i hne
    split
    · rename_i hlt
      exact ⟨rfl, copyUp_moved hd hs (.inl (Nat.le_of_lt (BitVec.lt_def.mp hlt)))⟩
    · rename_i hlt
      have hsrc : src.toNat < dst.toNat := by
        have h₁ : ¬dst.toNat < src.toNat := fun h => hlt (BitVec.lt_def.mpr h)
        have h₂ : dst.toNat ≠ src.toNat := fun h => hne (.inl (BitVec.eq_of_toNat_eq h))
        omega
      exact ⟨rfl, copyDown_moved hd hs hsrc⟩

/-- The destination does not start inside the source. -/
def Ahead (dst src n : BitVec 32) : Prop :=
  dst ≤ src ∨ dst.toNat + n.toNat ≤ src.toNat ∨ src.toNat + n.toNat ≤ dst.toNat

theorem memcpy_moved (hd : Fits dst n) (hs : Fits src n) (h : Ahead dst src n) :
    (memcpy m dst src n).1 = dst ∧ Moved m dst src n (memcpy m dst src n).2 := by
  refine ⟨rfl, copyUp_moved hd hs ?_⟩
  rcases h with h | h | h
  · exact .inl (BitVec.le_def.mp h)
  · exact .inl (by omega)
  · exact .inr h

/-- There is one memory that a range can be moved into. -/
theorem Moved.unique {m₁ m₂ : Bytes} (h₁ : Moved m dst src n m₁) (h₂ : Moved m dst src n m₂) : m₁ = m₂ := by
  funext a
  by_cases ha : a.toNat < dst.toNat ∨ dst.toNat + n.toNat ≤ a.toNat
  · rw [h₁.rest a ha, h₂.rest a ha]
  · have hin : dst + BitVec.ofNat 32 (a.toNat - dst.toNat) = a := by
      refine BitVec.eq_of_toNat_eq ?_
      have := a.isLt
      rw [BitVec.toNat_add, BitVec.toNat_ofNat]
      omega
    rw [← hin, h₁.bytes _ (by omega), h₂.bytes _ (by omega)]

/-- **`memmove`** on every memory and every two ranges of the address space; **`memcpy`** does the same where it
may be used. -/
theorem memmove_through_temporary (hd : Fits dst n) (hs : Fits src n) :
    (memmove m dst src n).1 = dst ∧ Moved m dst src n (memmove m dst src n).2 ∧
      (Ahead dst src n → memcpy m dst src n = memmove m dst src n) := by
  obtain ⟨hr, hm⟩ := memmove_moved (m := m) hd hs
  refine ⟨hr, hm, fun h => ?_⟩
  obtain ⟨hr', hm'⟩ := memcpy_moved (m := m) hd hs h
  exact Prod.ext (hr'.trans hr.symm) (hm'.unique hm)

end

/-- Every byte is its address. -/
def counting : Bytes := fun a => UInt8.ofNat a.toNat

/-- Five bytes moved up by two, into themselves, and down by two. -/
theorem memmove_through_temporary_five :
    (Moved counting 0x102 0x100 5 (memmove counting 0x102 0x100 5).2 ∧
      (memmove counting 0x102 0x100 5).2 0x106 = 4 ∧ (memcpy counting 0x102 0x100 5).2 0x106 = 0) ∧
    memcpy counting 0x100 0x102 5 = memmove counting 0x100 0x102 5 :=
  ⟨⟨(memmove_through_temporary (by decide) (by decide)).2.1, by decide, by decide⟩,
    (memmove_through_temporary (by decide) (by decide)).2.2 (.inl (by decide))⟩

end P4Linux.Boot
