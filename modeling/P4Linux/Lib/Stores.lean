import Mathlib.Logic.Function.Basic
import Mathlib.Data.List.Basic
import Mathlib.Tactic.Common

/-!
# Stores and copies, one cell after another

* `put`, `put_last`, `put_range` -- a cell holds what was **stored to it last**;
* `move`, `move_eq` -- cells that are copied in an order in which none is read after it was written end as if
  all had been read first.
-/

namespace P4Linux.Stores

variable {α β : Type*} [DecidableEq α]

/-! ## 1. Stores -/

/-- The values are stored in the order of the list. -/
def put (m : α → β) (ws : List (α × β)) : α → β := ws.foldl (fun m w => Function.update m w.1 w.2) m

@[simp] theorem put_nil (m : α → β) : put m [] = m := rfl

@[simp] theorem put_cons (m : α → β) (w : α × β) (ws : List (α × β)) :
    put m (w :: ws) = put (Function.update m w.1 w.2) ws := rfl

/-- A cell that nothing is stored to. -/
theorem put_of_notMem (m : α → β) {ws : List (α × β)} {a : α} (h : ∀ w ∈ ws, w.1 ≠ a) : put m ws a = m a := by
  induction ws generalizing m with
  | nil => rfl
  | cons w ws ih =>
    have hw := h w List.mem_cons_self
    rw [put_cons, ih _ fun w' hw' => h w' (List.mem_cons_of_mem _ hw'), Function.update_of_ne hw.symm]

/-- **The last store** to a cell is the one that counts. -/
theorem put_last (m : α → β) (before : List (α × β)) {after : List (α × β)} {a : α} {v : β}
    (h : ∀ w ∈ after, w.1 ≠ a) : put m (before ++ (a, v) :: after) a = v := by
  have happend : put m (before ++ (a, v) :: after) = put (put m before) ((a, v) :: after) := List.foldl_append
  rw [happend, put_cons, put_of_notMem _ h, Function.update_self]

/-- After a pass over cells by their indices, a cell has the value of the **last index** that leads to it. -/
theorem put_range (m : α → β) (f : Nat → α) (g : Nat → β) {n i : Nat} (hi : i < n) :
    ∃ j, i ≤ j ∧ j < n ∧ f j = f i ∧ (∀ k, j < k → k < n → f k ≠ f i) ∧
      put m ((List.range n).map fun k => (f k, g k)) (f i) = g j := by
  induction n with
  | zero => exact absurd hi (Nat.not_lt_zero i)
  | succ n ih =>
    have hlast : put m ((List.range (n + 1)).map fun k => (f k, g k)) =
        Function.update (put m ((List.range n).map fun k => (f k, g k))) (f n) (g n) := by
      rw [List.range_succ, List.map_append]
      exact List.foldl_append
    rw [hlast]
    by_cases hn : f n = f i
    · refine ⟨n, Nat.le_of_lt_succ hi, Nat.lt_succ_self n, hn, fun k hk hk' => absurd hk (by omega), ?_⟩
      rw [hn, Function.update_self]
    · have hlt : i < n := by
        have hne : i ≠ n := fun h => hn (by rw [h])
        omega
      obtain ⟨j, hij, hjn, hf, hafter, hv⟩ := ih hlt
      refine ⟨j, hij, Nat.lt_succ_of_lt hjn, hf, fun k hk hk' => ?_, ?_⟩
      · by_cases hkn : k = n
        · rw [hkn]
          exact hn
        · exact hafter k hk (by omega)
      · rw [Function.update_of_ne (fun h => hn h.symm)]
        exact hv

/-! ## 2. Copies -/

/-- The cells are copied in the order of the list, to the first of each pair from the second. -/
def move (m : α → β) (cells : List (α × α)) : α → β :=
  cells.foldl (fun m c => Function.update m c.1 (m c.2)) m

@[simp] theorem move_nil (m : α → β) : move m [] = m := rfl

@[simp] theorem move_cons (m : α → β) (c : α × α) (cells : List (α × α)) :
    move m (c :: cells) = move (Function.update m c.1 (m c.2)) cells := rfl

/-- None is read after it was written. -/
def ReadFirst (cells : List (α × α)) : Prop := cells.Pairwise fun c c' => c.1 ≠ c'.2

/-- **Copies read first** are stores of what the memory held before all of them. -/
theorem move_eq (m : α → β) {cells : List (α × α)} (h : ReadFirst cells) :
    move m cells = put m (cells.map fun c => (c.1, m c.2)) := by
  -- what is stored is read from `m₀`, which agrees with the memory wherever a copy is still to come
  have hall : ∀ (cells : List (α × α)) (m m₀ : α → β), ReadFirst cells → (∀ c ∈ cells, m c.2 = m₀ c.2) →
      move m cells = put m (cells.map fun c => (c.1, m₀ c.2)) := by
    intro cells
    induction cells with
    | nil => exact fun _ _ _ _ => rfl
    | cons c cells ih =>
      intro m m₀ h hm
      obtain ⟨hc, h⟩ := List.pairwise_cons.mp h
      rw [move_cons, List.map_cons, put_cons, hm c List.mem_cons_self]
      refine ih _ m₀ h fun c' hc' => ?_
      rw [Function.update_of_ne (hc c' hc').symm]
      exact hm c' (List.mem_cons_of_mem _ hc')
  exact hall cells m m h fun _ _ => rfl

/-- A cell that nothing is copied to. -/
theorem move_of_notMem (m : α → β) {cells : List (α × α)} {a : α} (h : ∀ c ∈ cells, c.1 ≠ a) :
    move m cells a = m a := by
  induction cells generalizing m with
  | nil => rfl
  | cons c cells ih =>
    have hc := h c List.mem_cons_self
    rw [move_cons, ih _ fun c' hc' => h c' (List.mem_cons_of_mem _ hc'), Function.update_of_ne hc.symm]

/-- What a cell holds that is written once. -/
theorem move_of_mem (m : α → β) {cells : List (α × α)} (h : ReadFirst cells)
    (hd : cells.Pairwise fun c c' => c.1 ≠ c'.1) {c : α × α} (hc : c ∈ cells) : move m cells c.1 = m c.2 := by
  obtain ⟨before, after, rfl⟩ := List.append_of_mem hc
  rw [move_eq m h, List.map_append, List.map_cons]
  refine put_last m _ fun w hw => ?_
  obtain ⟨c', hc', rfl⟩ := List.mem_map.mp hw
  exact (((List.pairwise_append.mp hd).2.1 |> List.pairwise_cons.mp).1 c' hc').symm

end P4Linux.Stores
