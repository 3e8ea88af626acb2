import Mathlib.Data.List.Forall2

/-!
# Runs that can stop with an error

`Except ε` as the monad of a program that aborts: what a run that came through says about its
parts.

* `bind_ok`, `mapM_ok`, `forM_ok`, `foldlM_cons_ok` -- one lemma per way of composing, each an
  equivalence, so that a successful run comes apart without unfolding the monad;
* `foldlM_keeps`, `foldlM_prefix`, `foldlM_progress` -- the invariant rules of a loop;
* `Returns`, `toOption_eq_iff` -- what a run returns if it does, and two runs with one result.
-/

namespace P4Linux

variable {ε α β γ σ : Type}

theorem bind_ok {x : Except ε α} {f : α → Except ε β} {r : β} :
    x >>= f = .ok r ↔ ∃ a, x = .ok a ∧ f a = .ok r := by
  cases x with
  | error e => simp [bind, Except.bind]
  | ok a => simp [bind, Except.bind]

theorem pure_ok {a b : α} : (pure a : Except ε α) = .ok b ↔ a = b := by
  simp [pure, Except.pure]

/-- A `mapM` that came through is the element-wise run. -/
theorem mapM_ok {f : α → Except ε β} {l : List α} {r : List β} :
    l.mapM f = .ok r ↔ List.Forall₂ (fun a b => f a = .ok b) l r := by
  induction l generalizing r with
  | nil => rw [List.mapM_nil, pure_ok, List.forall₂_nil_left_iff, eq_comm]
  | cons a l ih =>
    rw [List.mapM_cons, bind_ok]
    constructor
    · rintro ⟨b, hb, h⟩
      obtain ⟨bs, hbs, h⟩ := bind_ok.mp h
      rw [pure_ok] at h
      subst h
      exact .cons hb (ih.mp hbs)
    · intro h
      cases h with
      | cons hb hbs => exact ⟨_, hb, bind_ok.mpr ⟨_, ih.mpr hbs, rfl⟩⟩

/-- A `mapM` comes through where every element does. -/
theorem exists_mapM {f : α → Except ε β} {l : List α} (h : ∀ a ∈ l, ∃ b, f a = .ok b) :
    ∃ r, l.mapM f = .ok r := by
  induction l with
  | nil => exact ⟨[], rfl⟩
  | cons a l ih =>
    obtain ⟨b, hb⟩ := h a List.mem_cons_self
    obtain ⟨r, hr⟩ := ih fun c hc => h c (List.mem_cons_of_mem a hc)
    refine ⟨b :: r, ?_⟩
    rw [List.mapM_cons]
    exact bind_ok.mpr ⟨b, hb, bind_ok.mpr ⟨r, hr, rfl⟩⟩

theorem forM_ok {f : α → Except ε Unit} {l : List α} : l.forM f = .ok () ↔ ∀ a ∈ l, f a = .ok () := by
  induction l with
  | nil =>
    constructor
    · intro _ a h
      cases h
    · intro _
      rfl
  | cons a l ih =>
    show (f a >>= fun _ => l.forM f) = .ok () ↔ _
    rw [bind_ok]
    constructor
    · rintro ⟨_, ha, hl⟩ b hb
      rcases List.mem_cons.mp hb with rfl | hb
      · exact ha
      · exact ih.mp hl b hb
    · intro h
      exact ⟨(), h a List.mem_cons_self, ih.mpr fun b hb => h b (List.mem_cons_of_mem _ hb)⟩

/-- What each success determines, the whole list does. -/
theorem map_of_mapM_ok {f : α → Except ε β} {g : β → γ} {k : α → γ} {l : List α} {r : List β}
    (hf : ∀ a ∈ l, ∀ b, f a = .ok b → g b = k a) (h : l.mapM f = .ok r) : r.map g = l.map k := by
  rw [mapM_ok] at h
  induction h with
  | nil => rfl
  | cons hab _ ih =>
    rw [List.map_cons, List.map_cons, ih fun a ha => hf a (List.mem_cons_of_mem _ ha),
      hf _ List.mem_cons_self _ hab]

theorem getElem?_of_mapM_ok {f : α → Except ε β} {l : List α} {r : List β} {i : Nat} {b : β}
    (h : l.mapM f = .ok r) (hi : r[i]? = some b) : ∃ a, l[i]? = some a ∧ f a = .ok b := by
  rw [mapM_ok] at h
  induction h generalizing i with
  | nil => simp at hi
  | cons hab _ ih =>
    cases i with
    | zero =>
      rw [List.getElem?_cons_zero, Option.some.injEq] at hi
      exact ⟨_, List.getElem?_cons_zero, hi ▸ hab⟩
    | succ i =>
      rw [List.getElem?_cons_succ] at hi
      rw [List.getElem?_cons_succ]
      exact ih hi

theorem foldlM_nil_ok {f : σ → α → Except ε σ} {s s' : σ} :
    ([] : List α).foldlM f s = .ok s' ↔ s = s' := by
  rw [List.foldlM_nil, pure_ok]

theorem foldlM_cons_ok {f : σ → α → Except ε σ} {a : α} {l : List α} {s s' : σ} :
    (a :: l).foldlM f s = .ok s' ↔ ∃ t, f s a = .ok t ∧ l.foldlM f t = .ok s' := by
  rw [List.foldlM_cons, bind_ok]

theorem foldlM_append_ok {f : σ → α → Except ε σ} {l l' : List α} {s s' : σ} :
    (l ++ l').foldlM f s = .ok s' ↔ ∃ t, l.foldlM f s = .ok t ∧ l'.foldlM f t = .ok s' := by
  rw [List.foldlM_append, bind_ok]

/-- **A run of a loop keeps what each round keeps.** -/
theorem foldlM_keeps {f : σ → α → Except ε σ} {P : σ → Prop} {l : List α} {s s' : σ}
    (hstep : ∀ a ∈ l, ∀ t t', f t a = .ok t' → P t → P t')
    (h : l.foldlM f s = .ok s') (h0 : P s) : P s' := by
  induction l generalizing s with
  | nil => exact foldlM_nil_ok.mp h ▸ h0
  | cons a l ih =>
    obtain ⟨t, ht, h⟩ := foldlM_cons_ok.mp h
    exact ih (fun b hb => hstep b (List.mem_cons_of_mem a hb)) h
      (hstep a List.mem_cons_self s t ht h0)

/-- The same with what the loop has behind it: `I` speaks of the rounds made so far. -/
theorem foldlM_prefix {f : σ → α → Except ε σ} {I : List α → σ → Prop} {l : List α} {s s' : σ}
    (hstep : ∀ done a rest t t', l = done ++ a :: rest → I done t → f t a = .ok t' → I (done ++ [a]) t')
    (h : l.foldlM f s = .ok s') (h0 : I [] s) : I l s' := by
  suffices hrest : ∀ rest done t, l = done ++ rest → I done t → rest.foldlM f t = .ok s' → I l s' from
    hrest l [] s rfl h0 h
  intro rest
  induction rest with
  | nil =>
    intro done t hl ht h
    rw [foldlM_nil_ok] at h
    rw [hl, List.append_nil, ← h]
    exact ht
  | cons a rest ih =>
    intro done t hl ht h
    obtain ⟨t', ha, h⟩ := foldlM_cons_ok.mp h
    exact ih (done ++ [a]) t' (by rw [hl, List.append_assoc]; rfl) (hstep done a rest t t' hl ht ha) h

/-- A loop none of whose rounds can fail does not fail. -/
theorem foldlM_progress {f : σ → α → Except ε σ} {I : List α → σ → Prop} {l : List α} {s : σ}
    (hstep : ∀ done a rest t, l = done ++ a :: rest → I done t → ∃ t', f t a = .ok t' ∧ I (done ++ [a]) t')
    (h0 : I [] s) : ∃ s', l.foldlM f s = .ok s' ∧ I l s' := by
  suffices hrest : ∀ rest done t, l = done ++ rest → I done t → ∃ s', rest.foldlM f t = .ok s' ∧ I l s' from
    hrest l [] s rfl h0
  intro rest
  induction rest with
  | nil =>
    intro done t hl ht
    rw [List.append_nil] at hl
    exact ⟨t, rfl, hl ▸ ht⟩
  | cons a rest ih =>
    intro done t hl ht
    obtain ⟨t', ha, ht'⟩ := hstep done a rest t hl ht
    obtain ⟨s', hs', hl'⟩ := ih (done ++ [a]) t' (by rw [hl, List.append_assoc]; rfl) ht'
    exact ⟨s', foldlM_cons_ok.mpr ⟨t', ha, hs'⟩, hl'⟩

theorem ok_of_toOption {x : Except ε α} {a : α} (h : x.toOption = some a) : x = .ok a := by
  cases x with
  | error e => simp [Except.toOption] at h
  | ok b => simpa [Except.toOption] using h

/-- Two runs have the same outcome if both or neither returns, and then the same. -/
theorem toOption_eq_iff {x y : Except ε α} : y.toOption = x.toOption ↔
    ((∃ b, y = .ok b) ↔ ∃ a, x = .ok a) ∧ ∀ a b, x = .ok a → y = .ok b → b = a := by
  cases x with
  | error e => cases y <;> simp [Except.toOption]
  | ok a => cases y <;> simp [Except.toOption]

/-- Whatever the run returns satisfies `p`. -/
def Returns (x : Except ε α) (p : α → Prop) : Prop := ∀ a, x = .ok a → p a

instance (x : Except ε α) (p : α → Prop) [DecidablePred p] : Decidable (Returns x p) :=
  match x with
  | .error _ => isTrue fun _ h => by cases h
  | .ok a => decidable_of_iff (p a) ⟨fun h _ e => by cases e; exact h, fun h => h a rfl⟩

/-- A run whose result passes a check came through. -/
theorem exists_ok {x : Except ε α} {p : α → Bool} (h : x.toOption.any p = true) :
    ∃ a, x = .ok a ∧ p a = true := by
  cases x with
  | error e => cases h
  | ok a => exact ⟨a, rfl, h⟩

end P4Linux
