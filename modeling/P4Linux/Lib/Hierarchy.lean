import Mathlib.Logic.Function.Basic
import Mathlib.Data.List.Basic

/-!
# Two levels of cache, a cache for instructions, and a bus master

One line of memory with its copies: in a data cache, in an instruction cache, in a unified cache behind both.
The caches fetch and give up lines **at any moment**; what the CPU and a bus master do comes in between.

* `step`, `run` -- one line; `Line.reads`, `Line.fetches` what the CPU loads and executes there;
* `run_cons`, `run_nil` -- a schedule by its **work**, the events that are not the caches' own: a state that the
  caches keep lasts until the next piece of work;
* `step_quiet` -- nothing is lost but by dropping a line or behind the caches' back;
* `system_at` -- a machine of many lines is each of its lines.
-/

namespace P4Linux.Hierarchy

variable {α ι : Type*}

/-! ## 1. A line -/

/-- A copy in `data` or `l2` has its dirty bit. -/
structure Line (α : Type*) where
  code : Option α
  data : Option (α × Bool)
  l2 : Option (α × Bool)
  ram : α

inductive Ev (α : Type*) where
  /-- the caches -/
  | fillI | fillD | fillL2 | evictI | evictD | evictL2
  /-- the CPU -/
  | store (v : α)
  | writebackD | writebackL2 | dropI | dropD | dropL2
  /-- a bus master writes to the memory behind the caches -/
  | dma (v : α)

/-- What a cache does of its own accord. -/
def Ev.free : Ev α → Bool
  | fillI | fillD | fillL2 | evictI | evictD | evictL2 => true
  | _ => false

/-- What the unified cache and the memory serve. -/
def Line.below (s : Line α) : α := (s.l2.map Prod.fst).getD s.ram

/-- What the CPU loads. -/
def Line.reads (s : Line α) : α := (s.data.map Prod.fst).getD s.below

/-- What the CPU executes. -/
def Line.fetches (s : Line α) : α := s.code.getD s.below

/-- Out of the data cache, into the unified one where it is dirty. -/
def Line.spillD (s : Line α) (stays : Bool) : Line α :=
  match s.data with
  | some (v, true) => { s with data := if stays then some (v, false) else none, l2 := some (v, true) }
  | some (_, false) => if stays then s else { s with data := none }
  | none => s

/-- Out of the unified cache, into the memory where it is dirty. -/
def Line.spillL2 (s : Line α) (stays : Bool) : Line α :=
  match s.l2 with
  | some (v, true) => { s with l2 := if stays then some (v, false) else none, ram := v }
  | some (_, false) => if stays then s else { s with l2 := none }
  | none => s

def step (s : Line α) : Ev α → Line α
  | .fillI => if s.code.isSome then s else { s with code := some s.below }
  | .fillD => if s.data.isSome then s else { s with data := some (s.below, false) }
  | .fillL2 => if s.l2.isSome then s else { s with l2 := some (s.ram, false) }
  | .evictI | .dropI => { s with code := none }
  | .evictD => s.spillD false
  | .evictL2 => s.spillL2 false
  | .store v => { s with data := some (v, true) }
  | .writebackD => s.spillD true
  | .writebackL2 => s.spillL2 true
  | .dropD => { s with data := none }
  | .dropL2 => { s with l2 := none }
  | .dma v => { s with ram := v }

def run (s : Line α) (es : List (Ev α)) : Line α := es.foldl step s

/-- The events that are not the caches' own. -/
def work (es : List (Ev α)) : List (Ev α) := es.filter fun e => !e.free

/-! ## 2. Schedules by their work -/

section Work

variable {I J : Line α → Prop} {s : Line α} {es p : List (Ev α)} {a : Ev α}

/-- With no work left the caches are alone. -/
theorem run_nil (hfree : ∀ e s, e.free = true → I s → I (step s e)) (h : work es = []) (hs : I s) :
    I (run s es) := by
  induction es generalizing s with
  | nil => exact hs
  | cons e es ih =>
    have hall := List.filter_eq_nil_iff.mp h
    have he : e.free = true := by simpa using hall e List.mem_cons_self
    refine ih (List.filter_eq_nil_iff.mpr fun e' he' => hall e' (List.mem_cons_of_mem _ he')) ?_
    exact hfree e s he hs

/-- **Up to the next piece of work** the caches are alone, and it leads to `J`. -/
theorem run_cons (hfree : ∀ e s, e.free = true → I s → I (step s e)) (hstep : ∀ s, I s → J (step s a))
    (h : work es = a :: p) (hs : I s) : ∃ s' es', run s es = run s' es' ∧ work es' = p ∧ J s' := by
  obtain ⟨es₁, es₂, rfl, hes₁, -, hp⟩ := List.filter_eq_cons_iff.mp h
  refine ⟨step (run s es₁) a, es₂, ?_, hp, hstep _ ?_⟩
  · rw [run, List.foldl_append]
    rfl
  · exact run_nil hfree (List.filter_eq_nil_iff.mpr hes₁) hs

end Work

/-! ## 3. Nothing lost -/

/-- A copy that is not dirty is what the level behind it has. -/
structure Agree (s : Line α) : Prop where
  data : ∀ v, s.data = some (v, false) → s.below = v
  l2 : ∀ v, s.l2 = some (v, false) → s.ram = v

theorem agree_iff {s : Line α} : Agree s ↔
    (∀ v, s.data = some (v, false) → s.below = v) ∧ ∀ v, s.l2 = some (v, false) → s.ram = v :=
  ⟨fun h => ⟨h.data, h.l2⟩, fun h => ⟨h.1, h.2⟩⟩

/-- Neither dropped nor written behind the caches. -/
def Ev.quiet : Ev α → Bool
  | dropD | dropL2 | dma _ => false
  | _ => true

/-- What a line reads after an event that is quiet. -/
def Ev.leaves (v : α) : Ev α → α
  | store u => u
  | _ => v

theorem quiet_of_free {e : Ev α} (h : e.free = true) : e.quiet = true := by
  cases e <;> first | rfl | cases h

/-- **A quiet event loses nothing.** -/
theorem step_quiet {s : Line α} {e : Ev α} (he : e.quiet = true) (h : Agree s) :
    Agree (step s e) ∧ (step s e).reads = e.leaves s.reads := by
  rw [agree_iff] at h ⊢
  obtain ⟨code, data, l2, ram⟩ := s
  cases e
  case dropD | dropL2 | dma => cases he
  case fillI => cases code <;> exact ⟨h, rfl⟩
  all_goals
    rcases data with _ | ⟨v, _ | _⟩ <;> rcases l2 with _ | ⟨u, _ | _⟩ <;>
      simp_all [step, Line.spillD, Line.spillL2, Line.below, Line.reads, Ev.leaves]

/-- A run of quiet events: what was stored last, or what was there. -/
theorem run_quiet {s : Line α} {es : List (Ev α)} (hes : ∀ e ∈ es, e.quiet = true) (h : Agree s) :
    Agree (run s es) ∧ (run s es).reads = es.foldl Ev.leaves s.reads := by
  induction es generalizing s with
  | nil => exact ⟨h, rfl⟩
  | cons e es ih =>
    obtain ⟨ha, hr⟩ := step_quiet (hes e List.mem_cons_self) h
    have hrest := ih (fun e' he' => hes e' (List.mem_cons_of_mem _ he')) ha
    rw [hr] at hrest
    exact hrest

/-! ## 4. What the caches keep -/

def Clean (c : Option (α × Bool)) : Prop := ∀ p, c = some p → p.2 = false

/-- There is no copy, or it is a clean one of `v`. -/
def CopyOf (v : α) (c : Option (α × Bool)) : Prop := ∀ p, c = some p → p = (v, false)

/-- The CPU reads `v`, wherever it is. -/
def Holds (v : α) (s : Line α) : Prop := Agree s ∧ s.reads = v

/-- It is out of the data cache. -/
def Behind (v : α) (s : Line α) : Prop := Holds v s ∧ Clean s.data

/-- It is in memory, and every copy is one of it. -/
def Settled (v : α) (s : Line α) : Prop := CopyOf v s.data ∧ CopyOf v s.l2 ∧ s.ram = v

/-- The memory has `v`; what the caches hold is stale, maybe, but not dirty. -/
def Idle (v : α) (s : Line α) : Prop := Clean s.data ∧ Clean s.l2 ∧ s.ram = v

/-- The unified cache is not stale either. -/
def Served (v : α) (s : Line α) : Prop := Clean s.data ∧ CopyOf v s.l2 ∧ s.ram = v

/-- The same of the instruction cache. -/
def CodeOf (v : α) (s : Line α) : Prop := ∀ c, s.code = some c → c = v

section Keep

variable {v : α} {s : Line α}

theorem behind_step {e : Ev α} (he : e.free = true) (h : Behind v s) : Behind v (step s e) := by
  obtain ⟨⟨ha, hr⟩, hc⟩ := h
  obtain ⟨ha', hr'⟩ := step_quiet (quiet_of_free he) ha
  refine ⟨⟨ha', ?_⟩, ?_⟩
  · rw [hr', ← hr]
    cases e <;> first | rfl | cases he
  · obtain ⟨code, data, l2, ram⟩ := s
    cases e
    all_goals
      rcases data with _ | ⟨u, _ | _⟩ <;> rcases l2 with _ | ⟨t, _ | _⟩ <;>
        simp_all [step, Line.spillD, Line.spillL2, Clean, Ev.free]
    all_goals cases code <;> simp

theorem settled_step {e : Ev α} (he : e.free = true) (h : Settled v s) : Settled v (step s e) := by
  obtain ⟨code, data, l2, ram⟩ := s
  cases e
  all_goals
    rcases data with _ | ⟨u, _ | _⟩ <;> rcases l2 with _ | ⟨t, _ | _⟩ <;>
      simp_all [step, Line.spillD, Line.spillL2, Line.below, Settled, CopyOf, Ev.free]
  all_goals cases code <;> simp

theorem idle_step {e : Ev α} (he : e.free = true) (h : Idle v s) : Idle v (step s e) := by
  obtain ⟨code, data, l2, ram⟩ := s
  cases e
  all_goals
    rcases data with _ | ⟨u, _ | _⟩ <;> rcases l2 with _ | ⟨t, _ | _⟩ <;>
      simp_all [step, Line.spillD, Line.spillL2, Idle, Clean, Ev.free]
  all_goals cases code <;> simp

theorem served_step {e : Ev α} (he : e.free = true) (h : Served v s) : Served v (step s e) := by
  obtain ⟨code, data, l2, ram⟩ := s
  cases e
  all_goals
    rcases data with _ | ⟨u, _ | _⟩ <;> rcases l2 with _ | ⟨t, _ | _⟩ <;>
      simp_all [step, Line.spillD, Line.spillL2, Served, Clean, CopyOf, Ev.free]
  all_goals cases code <;> simp

/-- Of a line that is settled the caches serve `v`. -/
theorem Settled.below (h : Settled v s) : s.below = v := by
  obtain ⟨-, hl, hr⟩ := h
  unfold Line.below
  cases hc : s.l2 with
  | none => exact hr
  | some p => exact congrArg Prod.fst (hl p hc)

theorem Settled.reads (h : Settled v s) : s.reads = v := by
  unfold Line.reads
  cases hc : s.data with
  | none => exact h.below
  | some p => exact congrArg Prod.fst (h.1 p hc)

theorem codeOf_step {e : Ev α} (he : e.free = true) (hb : s.below = v) (h : CodeOf v s) : CodeOf v (step s e) := by
  obtain ⟨code, data, l2, ram⟩ := s
  cases e
  case fillI => cases code <;> simp_all [step, CodeOf, Line.below]
  case evictI => intro c hc; cases hc
  all_goals
    rcases data with _ | ⟨u, _ | _⟩ <;> rcases l2 with _ | ⟨t, _ | _⟩ <;>
      simp_all [step, Line.spillD, Line.spillL2, CodeOf, Ev.free]

theorem CodeOf.fetches (hb : s.below = v) (h : CodeOf v s) : s.fetches = v := by
  unfold Line.fetches
  cases hc : s.code with
  | none => exact hb
  | some c => exact h c hc

end Keep

/-! ## 5. What the maintenance is for -/

section Maintenance

variable {u v : α} {s : Line α} {es p : List (Ev α)}

theorem holds_step {e : Ev α} (he : e.free = true) (h : Holds v s) : Holds v (step s e) := by
  obtain ⟨ha, hr⟩ := step_quiet (quiet_of_free he) h.1
  refine ⟨ha, ?_⟩
  rw [hr, h.2]
  cases e <;> first | rfl | cases he

theorem behind_of_writebackD (h : Holds v s) : Behind v (step s .writebackD) := by
  obtain ⟨ha, hr⟩ := step_quiet (e := .writebackD) rfl h.1
  refine ⟨⟨ha, hr.trans h.2⟩, ?_⟩
  obtain ⟨code, data, l2, ram⟩ := s
  rcases data with _ | ⟨t, _ | _⟩ <;> simp [step, Line.spillD, Clean]

theorem settled_of_writebackL2 (h : Behind v s) : Settled v (step s .writebackL2) := by
  obtain ⟨⟨ha, hr⟩, hc⟩ := h
  rw [agree_iff] at ha
  obtain ⟨code, data, l2, ram⟩ := s
  rcases data with _ | ⟨t, _ | _⟩ <;> rcases l2 with _ | ⟨x, _ | _⟩ <;>
    simp_all [step, Line.spillL2, Settled, CopyOf, Clean, Line.reads, Line.below]

theorem idle_of_settled (h : Settled v s) : Idle v s :=
  ⟨fun p hp => by rw [h.1 p hp], fun p hp => by rw [h.2.1 p hp], h.2.2⟩

/-- Dropping the unified cache's copy **first** leaves nothing stale to refill the data cache with. -/
theorem served_of_dropL2 (h : Idle v s) : Served v (step s .dropL2) := ⟨h.1, (fun _ hp => by cases hp), h.2.2⟩

theorem settled_of_dropD (h : Served v s) : Settled v (step s .dropD) := ⟨(fun _ hp => by cases hp), h.2.1, h.2.2⟩

theorem settled_dropL2 (h : Settled v s) : Settled v (step s .dropL2) := ⟨h.1, (fun _ hp => by cases hp), h.2.2⟩

/-- **What the CPU stored is in memory** after a writeback of both caches, the data cache first. -/
theorem run_writeback (ha : Agree s) (h : work es = .writebackD :: .writebackL2 :: p) :
    ∃ s' es', run s es = run s' es' ∧ work es' = p ∧ Settled s.reads s' := by
  obtain ⟨s₁, es₁, e₁, hw₁, h₁⟩ := run_cons (I := Holds s.reads) (fun _ _ => holds_step)
    (fun _ => behind_of_writebackD) h ⟨ha, rfl⟩
  obtain ⟨s₂, es₂, e₂, hw₂, h₂⟩ := run_cons (I := Behind s.reads) (fun _ _ => behind_step)
    (fun _ => settled_of_writebackL2) hw₁ h₁
  exact ⟨s₂, es₂, e₁.trans e₂, hw₂, h₂⟩

/-- The bus master's writes, one after the other. -/
theorem run_dma (us : List α) (hs : Idle u s) (h : work es = us.map Ev.dma ++ p) :
    ∃ s' es', run s es = run s' es' ∧ work es' = p ∧ Idle (us.getLastD u) s' := by
  induction us generalizing u s es with
  | nil => exact ⟨s, es, rfl, h, hs⟩
  | cons w us ih =>
    obtain ⟨s₁, es₁, e₁, hw₁, h₁⟩ := run_cons (a := .dma w) (I := Idle u) (J := Idle w) (fun _ _ => idle_step)
      (fun t ht => ⟨ht.1, ht.2.1, rfl⟩) h hs
    obtain ⟨s', es', e, hw, h'⟩ := ih h₁ hw₁
    refine ⟨s', es', e₁.trans e, hw, ?_⟩
    cases us with
    | nil => exact h'
    | cons => exact h'

/-- **What the bus master wrote is what the CPU reads** after a drop of both caches, the unified one first. -/
theorem run_drop (hs : Idle v s) (h : work es = [.dropL2, .dropD]) : Settled v (run s es) := by
  obtain ⟨s₁, es₁, e₁, hw₁, h₁⟩ := run_cons (I := Idle v) (fun _ _ => idle_step) (fun _ => served_of_dropL2) h hs
  obtain ⟨s₂, es₂, e₂, hw₂, h₂⟩ := run_cons (I := Served v) (fun _ _ => served_step) (fun _ => settled_of_dropD) hw₁ h₁
  rw [e₁, e₂]
  exact run_nil (fun _ _ => settled_step) hw₂ h₂

end Maintenance

/-! ## 6. Many lines -/

section System

variable [DecidableEq ι]

/-- A machine: an event is one of a line. -/
def system (s : ι → Line α) (es : List (ι × Ev α)) : ι → Line α :=
  es.foldl (fun s e => Function.update s e.1 (step (s e.1) e.2)) s

/-- What happens to line `x`. -/
def at' (x : ι) (es : List (ι × Ev α)) : List (Ev α) := (es.filter (·.1 = x)).map Prod.snd

/-- **Each line runs by itself.** -/
theorem system_at (s : ι → Line α) (es : List (ι × Ev α)) (x : ι) : system s es x = run (s x) (at' x es) := by
  induction es generalizing s with
  | nil => rfl
  | cons e es ih =>
    have hcons : system s (e :: es) x = system (Function.update s e.1 (step (s e.1) e.2)) es x := rfl
    rw [hcons, ih]
    by_cases hx : e.1 = x
    · subst hx
      simp [at', run]
    · simp [at', hx, Function.update_of_ne (Ne.symm hx)]

@[simp] theorem at_nil (x : ι) : at' x ([] : List (ι × Ev α)) = [] := rfl

@[simp] theorem at_append (x : ι) (es es' : List (ι × Ev α)) : at' x (es ++ es') = at' x es ++ at' x es' := by
  simp [at']

/-- One event for each line of a region. -/
theorem at_region (e : Ev α) {ls : List ι} (hnd : ls.Nodup) (x : ι) :
    at' x (ls.map (·, e)) = if x ∈ ls then [e] else [] := by
  induction ls with
  | nil => rfl
  | cons l ls ih =>
    obtain ⟨hl, hnd⟩ := List.nodup_cons.mp hnd
    have ih := ih hnd
    unfold at' at ih ⊢
    by_cases hx : l = x
    · subst hx
      simp [ih, hl]
    · simp [ih, hx, Ne.symm hx]

end System

end P4Linux.Hierarchy
