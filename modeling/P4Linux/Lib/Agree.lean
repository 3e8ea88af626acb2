import P4Linux.Lib.Outcome

/-!
# Two runs that agree

`Agree R x y`: both runs stop with an error, or both come through and `R` relates the results.
The errors themselves are not compared. One rule for each way of composing, so that two versions
of one program are compared step by step:

* `Agree.bind` -- the continuations may use what the first parts returned;
* `Agree.mapM`, `Agree.foldlM` -- the same loop on both sides, over related lists;
* `EachOf`, `EachRound` -- what holds wherever a loop comes to, up to the round that stops it; under
  such a condition `Agree.mapM_each` and `Agree.foldlM_each`;
* `agree_eq` -- with equality, the outcome is the same.
-/

namespace P4Linux

variable {ε ε' α β γ δ σ τ : Type}

inductive Agree (R : α → β → Prop) : Except ε α → Except ε' β → Prop where
  | error (e : ε) (e' : ε') : Agree R (.error e) (.error e')
  | ok {a : α} {b : β} (h : R a b) : Agree R (.ok a) (.ok b)

theorem agree_pure {R : α → β → Prop} {a : α} {b : β} (h : R a b) :
    Agree R (pure a : Except ε α) (pure b : Except ε' β) := .ok h

theorem Agree.bind {R : α → β → Prop} {S : γ → δ → Prop} {x : Except ε α} {y : Except ε' β}
    {f : α → Except ε γ} {g : β → Except ε' δ} (h : Agree R x y)
    (hf : ∀ a b, x = .ok a → y = .ok b → R a b → Agree S (f a) (g b)) :
    Agree S (x >>= f) (y >>= g) := by
  cases h with
  | error e e' => exact .error e e'
  | ok h => exact hf _ _ rfl rfl h

/-- A part both runs have in common. -/
theorem agree_bind_self {S : γ → δ → Prop} {x : Except ε α} {f : α → Except ε γ} {g : α → Except ε δ}
    (h : ∀ a, x = .ok a → Agree S (f a) (g a)) : Agree S (x >>= f) (x >>= g) := by
  cases x with
  | error e => exact .error e e
  | ok a => exact h a rfl

theorem Agree.mono {R S : α → β → Prop} {x : Except ε α} {y : Except ε' β} (h : Agree R x y)
    (hRS : ∀ a b, R a b → S a b) : Agree S x y := by
  cases h with
  | error e e' => exact .error e e'
  | ok h => exact .ok (hRS _ _ h)

/-- The same position of two related lists. -/
theorem forall₂_getElem? {R : α → β → Prop} {l : List α} {l' : List β} (h : List.Forall₂ R l l')
    (i : Nat) : Option.Rel R l[i]? l'[i]? := by
  induction h generalizing i with
  | nil => exact .none
  | cons hab _ ih =>
    cases i with
    | zero => exact .some hab
    | succ i => exact ih i

/-- Related lists, with the place of the second element. -/
theorem forall₂_and_mem {R : α → β → Prop} {l : List α} {l' : List β} (h : List.Forall₂ R l l') :
    List.Forall₂ (fun a b => R a b ∧ b ∈ l') l l' := by
  induction h with
  | nil => exact .nil
  | cons hab _ ih =>
    exact .cons ⟨hab, List.mem_cons_self⟩ (ih.imp fun a b h => ⟨h.1, List.mem_cons_of_mem _ h.2⟩)

/-- What the second run returned, for the continuation. -/
theorem Agree.and_ok {R : α → β → Prop} {x : Except ε α} {y : Except ε' β} (h : Agree R x y) :
    Agree (fun a b => R a b ∧ y = .ok b) x y := by
  cases h with
  | error e e' => exact .error e e'
  | ok h => exact .ok ⟨h, rfl⟩

/-- A check both runs make. -/
theorem agree_ite {R : α → β → Prop} {p q : Prop} [Decidable p] [Decidable q] (hpq : p ↔ q)
    {x x' : Except ε α} {y y' : Except ε' β} (h : p → q → Agree R x y)
    (h' : ¬ p → ¬ q → Agree R x' y') :
    Agree R (if p then x else x') (if q then y else y') := by
  by_cases hp : p
  · rw [if_pos hp, if_pos (hpq.mp hp)]
    exact h hp (hpq.mp hp)
  · rw [if_neg hp, if_neg fun hq => hp (hpq.mpr hq)]
    exact h' hp fun hq => hp (hpq.mpr hq)

theorem Agree.mapM {Q : α → β → Prop} {R : γ → δ → Prop} {l : List α} {l' : List β}
    {f : α → Except ε γ} {g : β → Except ε' δ} (hl : List.Forall₂ Q l l')
    (h : ∀ a b, b ∈ l' → Q a b → Agree R (f a) (g b)) :
    Agree (List.Forall₂ R) (l.mapM f) (l'.mapM g) := by
  induction hl with
  | nil =>
    rw [List.mapM_nil, List.mapM_nil]
    exact agree_pure .nil
  | cons hab hl ih =>
    rw [List.mapM_cons, List.mapM_cons]
    refine (h _ _ List.mem_cons_self hab).bind fun c d _ _ hcd => ?_
    refine (ih fun a b hb => h a b (List.mem_cons_of_mem _ hb)).bind fun cs ds _ _ hcds => ?_
    exact agree_pure (.cons hcd hcds)

theorem agree_mapM_self {R : γ → δ → Prop} {l : List α} {f : α → Except ε γ} {g : α → Except ε' δ}
    (h : ∀ a ∈ l, Agree R (f a) (g a)) : Agree (List.Forall₂ R) (l.mapM f) (l.mapM g) :=
  Agree.mapM (Q := Eq) (List.forall₂_same.mpr fun _ _ => rfl) fun a _ hb e => e ▸ h a (e ▸ hb)

/-- **Two loops agree when each round does**, under a relation the rounds keep. -/
theorem Agree.foldlM {Q : α → β → Prop} {R : σ → τ → Prop} {l : List α} {l' : List β}
    {f : σ → α → Except ε σ} {g : τ → β → Except ε' τ} (hl : List.Forall₂ Q l l')
    (h : ∀ s t a b, b ∈ l' → Q a b → R s t → Agree R (f s a) (g t b)) {s : σ} {t : τ} (h0 : R s t) :
    Agree R (l.foldlM f s) (l'.foldlM g t) := by
  induction hl generalizing s t with
  | nil =>
    rw [List.foldlM_nil, List.foldlM_nil]
    exact agree_pure h0
  | cons hab hl ih =>
    rw [List.foldlM_cons, List.foldlM_cons]
    refine (h s t _ _ List.mem_cons_self hab h0).bind fun s' t' _ _ hst => ?_
    exact ih (fun s t a b hb => h s t a b (List.mem_cons_of_mem _ hb)) hst

/-! ## What a loop comes to -/

/-- `p` holds of every element the `mapM` of `g` comes to: behind one that stops it, nothing is asked. -/
def EachOf (g : β → Except ε' δ) (p : β → Prop) : List β → Prop
  | [] => True
  | b :: l => p b ∧ Returns (g b) fun _ => EachOf g p l

/-- `p` holds of every round the loop of `g` comes to, in the state it comes there with. -/
def EachRound (g : τ → β → Except ε' τ) (p : τ → β → Prop) : List β → τ → Prop
  | [], _ => True
  | b :: l, t => p t b ∧ Returns (g t b) fun t' => EachRound g p l t'

def decEachOf (g : β → Except ε' δ) (p : β → Prop) [DecidablePred p] : (l : List β) → Decidable (EachOf g p l)
  | [] => isTrue trivial
  | b :: l =>
    have := decEachOf g p l
    inferInstanceAs (Decidable (p b ∧ Returns (g b) fun _ => EachOf g p l))

instance (g : β → Except ε' δ) (p : β → Prop) [DecidablePred p] (l : List β) : Decidable (EachOf g p l) :=
  decEachOf g p l

def decEachRound (g : τ → β → Except ε' τ) (p : τ → β → Prop) [∀ t b, Decidable (p t b)] :
    (l : List β) → (t : τ) → Decidable (EachRound g p l t)
  | [], _ => isTrue trivial
  | b :: l, t =>
    have : DecidablePred fun t' => EachRound g p l t' := decEachRound g p l
    inferInstanceAs (Decidable (p t b ∧ Returns (g t b) fun t' => EachRound g p l t'))

instance (g : τ → β → Except ε' τ) (p : τ → β → Prop) [∀ t b, Decidable (p t b)] (l : List β) (t : τ) :
    Decidable (EachRound g p l t) := decEachRound g p l t

/-- **A `mapM` agrees when each element it comes to does.** -/
theorem Agree.mapM_each {Q : α → β → Prop} {R : γ → δ → Prop} {p : β → Prop} {l : List α} {l' : List β}
    {f : α → Except ε γ} {g : β → Except ε' δ} (hl : List.Forall₂ Q l l') (hp : EachOf g p l')
    (h : ∀ a b, Q a b → p b → Agree R (f a) (g b)) : Agree (List.Forall₂ R) (l.mapM f) (l'.mapM g) := by
  induction hl with
  | nil =>
    rw [List.mapM_nil, List.mapM_nil]
    exact agree_pure .nil
  | cons hab _ ih =>
    rw [List.mapM_cons, List.mapM_cons]
    refine (h _ _ hab hp.1).bind fun c d _ hd hcd => ?_
    exact (ih (hp.2 d hd)).bind fun cs ds _ _ hcds => agree_pure (.cons hcd hcds)

/-- **Two loops agree when each round the second comes to does.** -/
theorem Agree.foldlM_each {Q : α → β → Prop} {R : σ → τ → Prop} {p : τ → β → Prop} {l : List α}
    {l' : List β} {f : σ → α → Except ε σ} {g : τ → β → Except ε' τ} (hl : List.Forall₂ Q l l')
    (h : ∀ s t a b, Q a b → R s t → p t b → Agree R (f s a) (g t b)) {s : σ} {t : τ} (h0 : R s t)
    (hp : EachRound g p l' t) : Agree R (l.foldlM f s) (l'.foldlM g t) := by
  induction hl generalizing s t with
  | nil =>
    rw [List.foldlM_nil, List.foldlM_nil]
    exact agree_pure h0
  | cons hab _ ih =>
    rw [List.foldlM_cons, List.foldlM_cons]
    exact (h s t _ _ hab h0 hp.1).bind fun s' t' _ ht hst => ih hst (hp.2 t' ht)

theorem EachRound.mono {g : τ → β → Except ε' τ} {p q : τ → β → Prop} (hpq : ∀ t b, p t b → q t b) {l : List β}
    {t : τ} (h : EachRound g p l t) : EachRound g q l t := by
  induction l generalizing t with
  | nil => trivial
  | cons b l ih => exact ⟨hpq _ _ h.1, fun t' ht => ih (h.2 t' ht)⟩

theorem EachRound.append {g : τ → β → Except ε' τ} {p : τ → β → Prop} {l l' : List β} {t : τ}
    (h : EachRound g p (l ++ l') t) : EachRound g p l t ∧ Returns (l.foldlM g t) fun t' => EachRound g p l' t' := by
  induction l generalizing t with
  | nil => exact ⟨trivial, fun t' ht => foldlM_nil_ok.mp ht ▸ h⟩
  | cons b l ih =>
    refine ⟨⟨h.1, fun t1 h1 => (ih (h.2 t1 h1)).1⟩, fun t' ht => ?_⟩
    obtain ⟨t1, h1, ht⟩ := foldlM_cons_ok.mp ht
    exact (ih (h.2 t1 h1)).2 t' ht

/-- **What a loop that came through adds**: each of its rounds returned, from a state the rounds before
    have kept. -/
theorem EachRound.and_ok {g : τ → β → Except ε' τ} {p q : τ → β → Prop} {I : τ → Prop} {l : List β} {t t' : τ}
    (hstep : ∀ s b s', b ∈ l → I s → p s b → g s b = .ok s' → I s' ∧ q s b) (hp : EachRound g p l t)
    (hrun : l.foldlM g t = .ok t') (h0 : I t) : EachRound g (fun s b => p s b ∧ q s b) l t := by
  induction l generalizing t with
  | nil => trivial
  | cons b l ih =>
    obtain ⟨t1, h1, hrun⟩ := foldlM_cons_ok.mp hrun
    obtain ⟨hI, hq⟩ := hstep t b t1 List.mem_cons_self h0 hp.1 h1
    refine ⟨⟨hp.1, hq⟩, fun t2 h2 => ?_⟩
    obtain rfl := Except.ok.inj (h1.symm.trans h2)
    exact ih (fun s b s' hb => hstep s b s' (List.mem_cons_of_mem _ hb)) (hp.2 t1 h1) hrun hI

theorem agree_eq {x : Except ε α} {y : Except ε' α} (h : Agree Eq x y) : x.toOption = y.toOption := by
  cases h with
  | error e e' => rfl
  | ok h =>
    cases h
    rfl

end P4Linux
