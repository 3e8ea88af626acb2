import Mathlib.Data.List.Basic

/-!
# Work lists

A stack of items still to visit, the items seen, and a state that the visits change: the loop that
closes a set under what its members name. A visit can stop the whole run with an error.

* `run` -- the loop, with fuel; `none` is fuel that ran out and nothing else;
* `run_mono`, `run_ends` -- it ends on every finite set that the visits do not leave;
* `run_keeps`, `run_ok` -- the invariant rule, and the rule for a run that no visit stops;
* `run_all`, `run_closed` -- at its end the stack is seen, and what was seen is closed.
-/

namespace P4Linux.Worklist

variable {α σ ε : Type} [DecidableEq α]

/-! ## 1. The loop -/

/-- The stack is emptied from its top: an item that was seen is dropped, any other one is visited,
and what its visit named goes on the stack in that order. -/
def run (visit : α → σ → Except ε (List α × σ)) :
    Nat → List α → List α → σ → Option (Except ε (List α × σ))
  | 0, _, _, _ => none
  | _ + 1, [], seen, s => some (.ok (seen, s))
  | n + 1, a :: stack, seen, s =>
    if a ∈ seen then run visit n stack seen s
    else match visit a s with
      | .error e => some (.error e)
      | .ok (found, s') => run visit n (found.reverse ++ stack) (a :: seen) s'

variable {visit : α → σ → Except ε (List α × σ)} {n : Nat} {a : α} {stack seen : List α} {s : σ}

theorem run_seen (h : a ∈ seen) : run visit (n + 1) (a :: stack) seen s = run visit n stack seen s := by
  rw [run, if_pos h]

theorem run_error {e : ε} (h : a ∉ seen) (hv : visit a s = .error e) :
    run visit (n + 1) (a :: stack) seen s = some (.error e) := by
  rw [run, if_neg h, hv]

theorem run_visit {found : List α} {s' : σ} (h : a ∉ seen) (hv : visit a s = .ok (found, s')) :
    run visit (n + 1) (a :: stack) seen s = run visit n (found.reverse ++ stack) (a :: seen) s' := by
  rw [run, if_neg h, hv]

/-- More fuel changes nothing. -/
theorem run_mono {m : Nat} {r : Except ε (List α × σ)} (h : run visit n stack seen s = some r) (hm : n ≤ m) :
    run visit m stack seen s = some r := by
  induction n generalizing m stack seen s with
  | zero => cases h
  | succ n ih =>
    obtain ⟨m, rfl⟩ : ∃ k, m = k + 1 := ⟨m - 1, by omega⟩
    have hm' : n ≤ m := by omega
    cases stack with
    | nil => exact h
    | cons a stack =>
      by_cases ha : a ∈ seen
      · rw [run_seen ha] at h ⊢
        exact ih h hm'
      · cases hv : visit a s with
        | error e => rwa [run_error ha hv] at h ⊢
        | ok p =>
          rw [run_visit ha hv] at h ⊢
          exact ih h hm'

/-! ## 2. It ends -/

theorem filter_cons_lt {l : List α} (hl : a ∈ l) (h : a ∉ seen) :
    (l.filter (· ∉ a :: seen)).length < (l.filter (· ∉ seen)).length := by
  have hsub : (l.filter (· ∉ a :: seen)) = (l.filter (· ∉ seen)).filter (· ≠ a) := by
    rw [List.filter_filter]
    refine List.filter_congr fun b _ => ?_
    simp only [List.mem_cons, not_or, ne_eq, Bool.decide_and]
  rw [hsub]
  exact List.length_filter_lt_length_iff_exists.mpr
    ⟨a, List.mem_filter.mpr ⟨hl, by simpa using h⟩, by simp⟩

/-- **The loop ends** where the items lie in a finite set that no visit leaves: each round drops an
item of the stack or sees one more of the set. -/
theorem run_ends {l : List α} (hl : ∀ a ∈ l, ∀ s p, visit a s = .ok p → ∀ b ∈ p.1, b ∈ l)
    (hstack : ∀ a ∈ stack, a ∈ l) : ∃ n r, run visit n stack seen s = some r := by
  generalize hk : (l.filter (· ∉ seen)).length = k
  induction k using Nat.strongRecOn generalizing stack seen s with
  | ind k ih =>
    induction stack with
    | nil => exact ⟨1, _, rfl⟩
    | cons a stack ihs =>
      have ha := hstack a List.mem_cons_self
      have hrest : ∀ b ∈ stack, b ∈ l := fun b hb => hstack b (List.mem_cons_of_mem a hb)
      by_cases hseen : a ∈ seen
      · obtain ⟨n, r, hr⟩ := ihs hrest
        exact ⟨n + 1, r, by rw [run_seen hseen, hr]⟩
      · cases hv : visit a s with
        | error e => exact ⟨1, _, run_error hseen hv⟩
        | ok p =>
          have hfound : ∀ b ∈ p.1.reverse ++ stack, b ∈ l := by
            intro b hb
            rcases List.mem_append.mp hb with hb | hb
            · exact hl a ha s p hv b (List.mem_reverse.mp hb)
            · exact hrest b hb
          obtain ⟨n, r, hr⟩ := ih _ (hk ▸ filter_cons_lt ha hseen) hfound rfl (s := p.2)
          exact ⟨n + 1, r, by rw [run_visit hseen hv, hr]⟩

/-! ## 3. What every run keeps -/

section Rules

variable {P : α → Prop} {I : List α → σ → Prop}

/-- **The invariant rule**: what every visit of an item in `P` keeps holds where the loop ends. -/
theorem run_keeps (hP : ∀ a, P a → ∀ s p, visit a s = .ok p → ∀ b ∈ p.1, P b)
    (hstep : ∀ a seen s p, P a → I seen s → visit a s = .ok p → I (a :: seen) p.2)
    {r : List α × σ} (h : run visit n stack seen s = some (.ok r)) (hstack : ∀ a ∈ stack, P a)
    (h0 : I seen s) : I r.1 r.2 := by
  induction n generalizing stack seen s with
  | zero => cases h
  | succ n ih =>
    cases stack with
    | nil =>
      cases h
      exact h0
    | cons a stack =>
      have ha := hstack a List.mem_cons_self
      have hrest : ∀ b ∈ stack, P b := fun b hb => hstack b (List.mem_cons_of_mem a hb)
      by_cases hseen : a ∈ seen
      · rw [run_seen hseen] at h
        exact ih h hrest h0
      · cases hv : visit a s with
        | error e =>
          rw [run_error hseen hv] at h
          cases h
        | ok p =>
          rw [run_visit hseen hv] at h
          refine ih h (fun b hb => ?_) (hstep a seen s p ha h0 hv)
          rcases List.mem_append.mp hb with hb | hb
          · exact hP a ha s p hv b (List.mem_reverse.mp hb)
          · exact hrest b hb

/-- A loop none of whose visits can fail does not fail. -/
theorem run_ok (hP : ∀ a, P a → ∀ s p, visit a s = .ok p → ∀ b ∈ p.1, P b)
    (hstep : ∀ a seen s, P a → I seen s → ∃ p, visit a s = .ok p ∧ I (a :: seen) p.2)
    {r : Except ε (List α × σ)} (h : run visit n stack seen s = some r) (hstack : ∀ a ∈ stack, P a)
    (h0 : I seen s) : ∃ p, r = .ok p ∧ I p.1 p.2 := by
  induction n generalizing stack seen s with
  | zero => cases h
  | succ n ih =>
    cases stack with
    | nil =>
      cases h
      exact ⟨_, rfl, h0⟩
    | cons a stack =>
      have ha := hstack a List.mem_cons_self
      have hrest : ∀ b ∈ stack, P b := fun b hb => hstack b (List.mem_cons_of_mem a hb)
      by_cases hseen : a ∈ seen
      · rw [run_seen hseen] at h
        exact ih h hrest h0
      · obtain ⟨p, hv, hnext⟩ := hstep a seen s ha h0
        rw [run_visit hseen hv] at h
        refine ih h (fun b hb => ?_) hnext
        rcases List.mem_append.mp hb with hb | hb
        · exact hP a ha s p hv b (List.mem_reverse.mp hb)
        · exact hrest b hb

end Rules

/-! ## 4. What was seen is closed -/

/-- Nothing that was seen is forgotten, and the whole stack is seen. -/
theorem run_all {r : List α × σ} (h : run visit n stack seen s = some (.ok r)) :
    (∀ a ∈ seen, a ∈ r.1) ∧ ∀ a ∈ stack, a ∈ r.1 := by
  induction n generalizing stack seen s with
  | zero => cases h
  | succ n ih =>
    cases stack with
    | nil =>
      cases h
      exact ⟨fun _ ha => ha, fun _ ha => nomatch ha⟩
    | cons a stack =>
      by_cases hseen : a ∈ seen
      · rw [run_seen hseen] at h
        obtain ⟨hold, hstack⟩ := ih h
        refine ⟨hold, fun b hb => ?_⟩
        rcases List.mem_cons.mp hb with rfl | hb
        · exact hold b hseen
        · exact hstack b hb
      · cases hv : visit a s with
        | error e =>
          rw [run_error hseen hv] at h
          cases h
        | ok p =>
          rw [run_visit hseen hv] at h
          obtain ⟨hold, hstack⟩ := ih h
          refine ⟨fun b hb => hold b (List.mem_cons_of_mem a hb), fun b hb => ?_⟩
          rcases List.mem_cons.mp hb with rfl | hb
          · exact hold b List.mem_cons_self
          · exact hstack b (List.mem_append_right _ hb)

/-- **What a seen item names is seen**, where a visit names the same items whatever the state. -/
theorem run_closed {next : α → List α} (hnext : ∀ a s p, visit a s = .ok p → p.1 = next a)
    {r : List α × σ} (h : run visit n stack seen s = some (.ok r)) (ha : a ∈ r.1) :
    a ∈ seen ∨ ∀ b ∈ next a, b ∈ r.1 := by
  induction n generalizing stack seen s with
  | zero => cases h
  | succ n ih =>
    cases stack with
    | nil =>
      cases h
      exact .inl ha
    | cons c stack =>
      by_cases hseen : c ∈ seen
      · rw [run_seen hseen] at h
        exact ih h
      · cases hv : visit c s with
        | error e =>
          rw [run_error hseen hv] at h
          cases h
        | ok p =>
          rw [run_visit hseen hv] at h
          rcases ih h with hc | hc
          · rcases List.mem_cons.mp hc with rfl | hc
            · refine .inr fun b hb => (run_all h).2 b (List.mem_append_left _ ?_)
              rw [hnext _ s p hv]
              exact List.mem_reverse.mpr hb
            · exact .inl hc
          · exact .inr hc

end P4Linux.Worklist
