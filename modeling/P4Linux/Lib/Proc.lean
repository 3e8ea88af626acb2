import Mathlib.Data.Nat.Notation

/-!
# Programs that talk to a world and may not come to an end

`Proc σ α` is a program over a world `σ`: it changes the world and returns an `α`, or it is cut off
(its loops are given a number of rounds) and leaves the world as it is by then.

* `Ends x s a s'` -- started in `s`, the program comes to its end with `a` in `s'`; `ends_pure`,
  `ends_bind` take such a run apart and put it together;
* `wp x q c s` -- it ends with `q`, or is cut off with `c`; `wp_bind`, `wp_mono`;
* `Leaves v x` -- wherever the program stops, cut off or not, what `v` sees of the world is
  unchanged; `leaves_bind`;
* `Follows v x y` -- seen through `v`, `x` is `y`; `follows_bind`.
-/

namespace P4Linux

variable {σ α β : Type}

def Proc (σ α : Type) : Type := σ → Option α × σ

namespace Proc

instance : Monad (Proc σ) where
  pure a := fun s => (some a, s)
  bind x f := fun s => match x s with
    | (some a, s') => f a s'
    | (none, s') => (none, s')

/-- Cut off. -/
def stuck : Proc σ α := fun s => (none, s)

/-- One step of the world. -/
def step (f : σ → α × σ) : Proc σ α := fun s => (some (f s).1, (f s).2)

/-! ## 1. Runs that come to their end -/

def Ends (x : Proc σ α) (s : σ) (a : α) (s' : σ) : Prop := x s = (some a, s')

theorem ends_pure {a b : α} {s s' : σ} : Ends (pure a) s b s' ↔ a = b ∧ s = s' := by
  show (some a, s) = (some b, s') ↔ _
  rw [Prod.mk.injEq, Option.some.injEq]

theorem ends_step {f : σ → α × σ} {s s' : σ} {a : α} : Ends (step f) s a s' ↔ f s = (a, s') := by
  show (some (f s).1, (f s).2) = (some a, s') ↔ _
  rw [Prod.mk.injEq, Option.some.injEq, ← Prod.mk.injEq]

theorem not_ends_stuck {s s' : σ} {a : α} : ¬ Ends (stuck : Proc σ α) s a s' := by
  intro h
  cases h

theorem ends_bind {x : Proc σ α} {f : α → Proc σ β} {s s' : σ} {b : β} :
    Ends (x >>= f) s b s' ↔ ∃ a t, Ends x s a t ∧ Ends (f a) t b s' := by
  show (match x s with | (some a, t) => f a t | (none, t) => (none, t)) = (some b, s') ↔ _
  unfold Ends
  cases hx : x s with
  | mk o t =>
    cases o with
    | none => simp
    | some a =>
      constructor
      · exact fun h => ⟨a, t, rfl, h⟩
      · rintro ⟨_, _, e, h⟩
        cases e
        exact h

theorem Ends.bind {x : Proc σ α} {f : α → Proc σ β} {s t s' : σ} {a : α} {b : β} (h : Ends x s a t)
    (h' : Ends (f a) t b s') : Ends (x >>= f) s b s' :=
  ends_bind.mpr ⟨a, t, h, h'⟩

/-- A program ends in one way. -/
theorem Ends.unique {x : Proc σ α} {s t t' : σ} {a a' : α} (h : Ends x s a t) (h' : Ends x s a' t') :
    a = a' ∧ t = t' := by
  rw [Ends, h, Prod.mk.injEq, Option.some.injEq] at h'
  exact h'

theorem ends_of_fst {x : Proc σ α} {s : σ} {a : α} (h : (x s).1 = some a) : Ends x s a (x s).2 :=
  Prod.ext h rfl

/-- A run that was carried out. -/
theorem exists_ends {x : Proc σ α} {s : σ} {p : α → Bool} (h : (x s).1.any p = true) :
    ∃ a s', Ends x s a s' ∧ p a = true := by
  obtain ⟨a, ha, hp⟩ := (Option.any_eq_true _ _).mp h
  exact ⟨a, (x s).2, Prod.ext ha rfl, hp⟩

/-! ## 2. What holds when a program stops -/

/-- Started in `s`, the program ends with `q` or is cut off with `c`. -/
def wp (x : Proc σ α) (q : α → σ → Prop) (c : σ → Prop) (s : σ) : Prop :=
  match x s with
  | (some a, s') => q a s'
  | (none, s') => c s'

variable {q q' : α → σ → Prop} {c c' : σ → Prop} {s : σ}

@[simp] theorem wp_pure {a : α} : wp (pure a) q c s ↔ q a s := Iff.rfl

@[simp] theorem wp_stuck : wp (stuck : Proc σ α) q c s ↔ c s := Iff.rfl

@[simp] theorem wp_step {f : σ → α × σ} : wp (step f) q c s ↔ q (f s).1 (f s).2 := Iff.rfl

theorem wp_bind {x : Proc σ α} {f : α → Proc σ β} {q : β → σ → Prop} :
    wp (x >>= f) q c s ↔ wp x (fun a => wp (f a) q c) c s := by
  show (match (match x s with | (some a, t) => f a t | (none, t) => (none, t)) with
    | (some b, s') => q b s'
    | (none, s') => c s') ↔ _
  unfold wp
  rcases x s with ⟨_ | a, t⟩
  · exact Iff.rfl
  · exact Iff.rfl

theorem wp_mono {x : Proc σ α} (h : wp x q c s) (hq : ∀ a t, q a t → q' a t) (hc : ∀ t, c t → c' t) :
    wp x q' c' s := by
  unfold wp at h ⊢
  rcases hx : x s with ⟨_ | a, t⟩
  · rw [hx] at h
    exact hc t h
  · rw [hx] at h
    exact hq a t h

theorem Ends.of_wp {x : Proc σ α} {a : α} {s' : σ} (h : Ends x s a s') (hx : wp x q c s) : q a s' := by
  unfold wp at hx
  rw [h] at hx
  exact hx

/-- What is known of every end may be used at it. -/
theorem wp_and_ends {x : Proc σ α} {r : α → Prop} (h : wp x q c s) (hr : ∀ a t, Ends x s a t → r a) :
    wp x (fun a t => r a ∧ q a t) c s := by
  unfold wp at h ⊢
  rcases hx : x s with ⟨_ | a, t⟩
  · rw [hx] at h
    exact h
  · rw [hx] at h
    exact ⟨hr a t hx, h⟩

/-! ## 3. What a program leaves alone -/

/-- Wherever the program stops, what `v` sees of the world is what it saw before. -/
def Leaves (v : σ → β) (x : Proc σ α) : Prop := ∀ s, v (x s).2 = v s

section

variable {γ : Type} {v : σ → γ}

theorem leaves_pure (a : α) : Leaves v (pure a : Proc σ α) := fun _ => rfl

theorem leaves_stuck : Leaves v (stuck : Proc σ α) := fun _ => rfl

theorem leaves_step {f : σ → α × σ} (h : ∀ s, v (f s).2 = v s) : Leaves v (step f) := h

theorem leaves_bind {x : Proc σ α} {f : α → Proc σ β} (hx : Leaves v x) (hf : ∀ a, Leaves v (f a)) :
    Leaves v (x >>= f) := by
  intro s
  show v (match x s with | (some a, t) => f a t | (none, t) => (none, t)).2 = v s
  have h := hx s
  rcases hs : x s with ⟨_ | a, t⟩
  · rw [hs] at h
    exact h
  · rw [hs] at h
    exact (hf a t).trans h

theorem leaves_ite {p : Prop} [Decidable p] {x y : Proc σ α} (hx : Leaves v x) (hy : Leaves v y) :
    Leaves v (if p then x else y) := by
  split
  · exact hx
  · exact hy

theorem Leaves.wp {x : Proc σ α} (h : Leaves v x) (s : σ) :
    wp x (fun _ t => v t = v s) (fun t => v t = v s) s := by
  have h := h s
  unfold Proc.wp
  rcases hs : x s with ⟨_ | a, t⟩
  · rw [hs] at h
    exact h
  · rw [hs] at h
    exact h

theorem Leaves.ends {x : Proc σ α} (h : Leaves v x) {s s' : σ} {a : α} (he : Ends x s a s') :
    v s' = v s := by
  have hs := h s
  rw [he] at hs
  exact hs

/-- A step that `v` does not see, and what follows it. -/
theorem wp_bind_leaves {x : Proc σ α} {f : α → Proc σ β} {q : β → σ → Prop} {u : γ} (hs : v s = u)
    (hx : Leaves v x) (hf : ∀ a t, v t = u → wp (f a) q c t) (hc : ∀ t, v t = u → c t) :
    wp (x >>= f) q c s :=
  wp_bind.mpr (wp_mono (hx.wp s) (fun a t h => hf a t (h.trans hs)) fun t h => hc t (h.trans hs))

end

/-! ## 4. One program over two worlds -/

/-- Seen through `v`, the first program does what the second does. -/
def Follows {τ : Type} (v : σ → τ) (x : Proc σ α) (y : Proc τ α) : Prop := ∀ s, Prod.map id v (x s) = y (v s)

section

variable {τ : Type} {v : σ → τ}

theorem follows_pure (a : α) : Follows v (pure a : Proc σ α) (pure a) := fun _ => rfl

theorem follows_stuck : Follows v (stuck : Proc σ α) stuck := fun _ => rfl

theorem bind_apply (x : Proc σ α) (f : α → Proc σ β) (s : σ) :
    (x >>= f) s = match x s with | (some a, t) => f a t | (none, t) => (none, t) := rfl

theorem follows_bind {x : Proc σ α} {y : Proc τ α} {f : α → Proc σ β} {g : α → Proc τ β} (h : Follows v x y)
    (hf : ∀ a, Follows v (f a) (g a)) : Follows v (x >>= f) (y >>= g) := by
  intro s
  rw [bind_apply, bind_apply, ← h s]
  rcases x s with ⟨_ | a, t⟩
  · rfl
  · exact hf a t

/-- What comes after the second program has ended is not seen. -/
theorem follows_then {x : Proc σ α} {y : Proc τ α} {f : α → Proc σ α} (h : Follows v x y)
    (hf : ∀ a, Follows v (f a) (pure a)) : Follows v (x >>= f) y := by
  intro s
  rw [bind_apply, ← h s]
  rcases x s with ⟨_ | a, t⟩
  · rfl
  · exact hf a t

theorem follows_ite {p : Prop} [Decidable p] {x x' : Proc σ α} {y y' : Proc τ α} (h : Follows v x y)
    (h' : Follows v x' y') : Follows v (if p then x else x') (if p then y else y') := by
  split
  · exact h
  · exact h'

theorem Follows.ends {x : Proc σ α} {y : Proc τ α} (h : Follows v x y) {s s' : σ} {a : α} (he : Ends x s a s') :
    Ends y (v s) a (v s') := by
  have hs := h s
  rw [he] at hs
  exact hs.symm

end

end Proc

end P4Linux
