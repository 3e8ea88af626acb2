import Mathlib.Data.List.Induction
import Mathlib.Data.List.Nodup
import Mathlib.Tactic.Common

/-!
# Handles that are taken and dropped

* `Always p l` -- `p` holds of every entry of a trace and what stands before it; `always_snoc`;
* `held`, `Fresh`, `Owned` -- what a trace of takes and drops has in hand; nothing is taken that is in hand,
  nothing dropped that is not;
* `drops_of_owned` -- **whatever is taken is dropped once** before it is taken again, unless it is in hand at
  the end.
-/

namespace P4Linux.Handles

variable {α β : Type*}

/-! ## 1. Traces -/

def Always (p : List β → β → Prop) (l : List β) : Prop := ∀ ⦃pre x post⦄, l = pre ++ x :: post → p pre x

variable {p : List β → β → Prop} {l : List β} {y : β}

theorem always_nil : Always p [] := by
  intro pre x post h
  cases pre <;> cases h

theorem always_snoc : Always p (l ++ [y]) ↔ Always p l ∧ p l y := by
  constructor
  · intro h
    refine ⟨fun pre x post hl => @h pre x (post ++ [y]) ?_, h rfl⟩
    rw [hl, List.append_assoc, List.cons_append]
  · rintro ⟨h, hy⟩ pre x post hl
    rcases List.eq_nil_or_concat post with rfl | ⟨post, z, rfl⟩
    · obtain ⟨rfl, e⟩ := List.append_inj' hl rfl
      obtain rfl := (List.cons.inj e).1
      exact hy
    · rw [List.concat_eq_append, ← List.cons_append, ← List.append_assoc] at hl
      exact h (List.append_inj' hl rfl).1

theorem Always.prefix {l' : List β} (h : Always p (l ++ l')) : Always p l := by
  intro pre x post hl
  refine @h pre x (post ++ l') ?_
  rw [hl, List.append_assoc, List.cons_append]

/-! ## 2. What is in hand -/

inductive Op (α : Type*) where
  | take (a : α)
  | drop (a : α)
  deriving DecidableEq

variable [DecidableEq α]

def step (hand : List α) : Op α → List α
  | .take a => a :: hand
  | .drop a => hand.erase a

def held (ops : List (Op α)) : List α := ops.foldl step []

/-- Nothing is taken that is in hand. -/
def Fresh : List (Op α) → Prop := Always fun pre x => ∀ a, x = .take a → a ∉ held pre

/-- Nothing is dropped that is not in hand. -/
def Owned : List (Op α) → Prop := Always fun pre x => ∀ a, x = .drop a → a ∈ held pre

variable {ops : List (Op α)} {op : Op α} {a : α}

theorem held_snoc : held (ops ++ [op]) = step (held ops) op := by
  rw [held, List.foldl_append]
  rfl

theorem fresh_snoc : Fresh (ops ++ [op]) ↔ Fresh ops ∧ ∀ a, op = .take a → a ∉ held ops := always_snoc

theorem owned_snoc : Owned (ops ++ [op]) ↔ Owned ops ∧ ∀ a, op = .drop a → a ∈ held ops := always_snoc

/-- Induction on the trace, from its end. -/
theorem Fresh.nodup (h : Fresh ops) : (held ops).Nodup := by
  induction ops using List.reverseRecOn with
  | nil => exact List.nodup_nil
  | append_singleton ops op ih =>
    obtain ⟨hops, hop⟩ := fresh_snoc.mp h
    rw [held_snoc]
    cases op with
    | take a => exact List.nodup_cons.mpr ⟨hop a rfl, ih hops⟩
    | drop a => exact (ih hops).erase a

/-! ## 3. How often a handle is dropped -/

/-- The drops of `a` before it is taken again. -/
def drops (a : α) : List (Op α) → Nat
  | [] => 0
  | .take b :: ops => if b = a then 0 else drops a ops
  | .drop b :: ops => (if b = a then 1 else 0) + drops a ops

theorem drops_taken (h : .take a ∉ ops) (ops' : List (Op α)) :
    drops a (ops ++ .take a :: ops') = drops a ops := by
  induction ops with
  | nil => exact if_pos rfl
  | cons op ops ih =>
    have ih := ih fun hm => h (List.mem_cons_of_mem _ hm)
    cases op with
    | take b =>
      have hb : ¬ b = a := fun e => h (e ▸ List.mem_cons_self)
      rw [List.cons_append, drops, drops, if_neg hb, if_neg hb, ih]
    | drop b => rw [List.cons_append, drops, drops, ih]

theorem drops_snoc (h : .take a ∉ ops) :
    drops a (ops ++ [op]) = drops a ops + if op = .drop a then 1 else 0 := by
  induction ops with
  | nil =>
    rcases op with b | b
    · rw [List.nil_append, drops, drops, drops, ite_self, if_neg (by rintro ⟨⟩)]
    · simp only [List.nil_append, drops, Op.drop.injEq, Nat.add_comm]
  | cons o ops ih =>
    have ih := ih fun hm => h (List.mem_cons_of_mem _ hm)
    cases o with
    | take b =>
      have hb : ¬ b = a := fun e => h (e ▸ List.mem_cons_self)
      rw [List.cons_append, drops, drops, if_neg hb, if_neg hb, ih]
    | drop b => rw [List.cons_append, drops, drops, ih, Nat.add_assoc]

/-- Induction on what follows, from its end: a drop takes `a` out of the hand, so that no second one can come
    before the next take. -/
theorem drops_since {pre post : List (Op α)} (hfresh : Fresh (pre ++ .take a :: post))
    (howned : Owned (pre ++ .take a :: post)) (h : .take a ∉ post) :
    drops a post = if a ∈ held (pre ++ .take a :: post) then 0 else 1 := by
  induction post using List.reverseRecOn with
  | nil =>
    rw [held_snoc, step, if_pos List.mem_cons_self]
    rfl
  | append_singleton post op ih =>
    have hpost : .take a ∉ post := fun hm => h (List.mem_append_left _ hm)
    have hop : op ≠ .take a := fun e => h (List.mem_append_right _ (e ▸ List.mem_cons_self))
    rw [← List.cons_append, ← List.append_assoc] at hfresh howned ⊢
    obtain ⟨howned, hdrop⟩ := owned_snoc.mp howned
    have hnodup := (fresh_snoc.mp hfresh).1.nodup
    rw [drops_snoc hpost, ih (fresh_snoc.mp hfresh).1 howned hpost, held_snoc]
    cases op with
    | take b =>
      have hb : a ≠ b := fun e => hop (e ▸ rfl)
      simp only [step, List.mem_cons, hb, false_or, reduceCtorEq, if_false, Nat.add_zero]
    | drop b =>
      by_cases hb : b = a
      · subst hb
        rw [if_pos (hdrop b rfl), if_pos rfl, step, if_neg hnodup.not_mem_erase]
      · simp only [step, List.mem_erase_of_ne (Ne.symm hb), Op.drop.injEq, hb, if_false, Nat.add_zero]

/-- **Whatever is taken is dropped once** before it is taken again, unless it is in hand at the end. -/
theorem drops_of_owned {pre post : List (Op α)} (hfresh : Fresh (pre ++ .take a :: post))
    (howned : Owned (pre ++ .take a :: post)) :
    drops a post = if .take a ∉ post ∧ a ∈ held (pre ++ .take a :: post) then 0 else 1 := by
  by_cases h : .take a ∈ post
  · -- up to the next take, for which it must not be in hand
    obtain ⟨mid, post, rfl, hmid⟩ := List.eq_append_cons_of_mem h
    rw [← List.cons_append, ← List.append_assoc] at hfresh howned
    have hnot : a ∉ held (pre ++ .take a :: mid) := hfresh rfl a rfl
    rw [drops_taken hmid, drops_since hfresh.prefix howned.prefix hmid, if_neg hnot,
      if_neg fun hc => hc.1 h]
  · rw [drops_since hfresh howned h]
    simp only [h, not_false_iff, true_and]

end P4Linux.Handles
