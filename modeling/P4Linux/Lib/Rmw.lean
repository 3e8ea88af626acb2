import Mathlib.Data.BitVec
import Mathlib.Logic.Function.Basic

/-!
# Registers that are read, changed and written back

An update of a register takes two steps: a thread reads the register, and later writes what it has made of the
value. Between the two other threads take theirs.

* `Run.serial` -- where no two threads have one register open at a time, a register ends as if its updates had been
  done **one after the other**;
* `race_iff` -- and of two updates that overlap, exactly when every order of their steps does;
* `setBits` -- updates that clear some bits and set others, and what they leave of each other.
-/

namespace P4Linux.Rmw

open Function (update update_self update_of_ne update_eq_self)

variable {R T V : Type}

structure Update (R V : Type) where
  reg : R
  f : V → V
  /-- a value that stays is not written -/
  lazy : Bool

/-- The update writes, having read `v`. -/
def Update.Writes (u : Update R V) (v : V) : Prop := u.lazy = true → u.f v ≠ v

instance [DecidableEq V] (u : Update R V) (v : V) : Decidable (u.Writes v) :=
  inferInstanceAs (Decidable (_ → _))

theorem Update.f_of_not_writes {u : Update R V} {v : V} (h : ¬ u.Writes v) : u.f v = v := by
  unfold Update.Writes at h
  by_contra hne
  exact h fun _ => hne

/-- The registers, and what each thread has open: the update and the value it read. -/
structure St (R T V : Type) where
  regs : R → V
  opened : T → Option (Update R V × V)

variable [DecidableEq R] [DecidableEq T] [DecidableEq V]

/-- The second half of an update. -/
def Update.put (u : Update R V) (v : V) (regs : R → V) : R → V :=
  if u.Writes v then update regs u.reg (u.f v) else regs

/-- The whole update at once. -/
def Update.on (u : Update R V) (regs : R → V) : R → V := u.put (regs u.reg) regs

def St.load (s : St R T V) (t : T) (u : Update R V) : St R T V :=
  { s with opened := update s.opened t (some (u, s.regs u.reg)) }

def St.store (s : St R T V) (t : T) (u : Update R V) (v : V) : St R T V :=
  ⟨u.put v s.regs, update s.opened t none⟩

/-- A step, with the update it completes. -/
inductive Step : St R T V → List (Update R V) → St R T V → Prop
  | load {s : St R T V} {t : T} {u : Update R V} (h : s.opened t = none) : Step s [] (s.load t u)
  | store {s : St R T V} {t : T} {u : Update R V} {v : V} (h : s.opened t = some (u, v)) :
      Step s [u] (s.store t u v)

theorem Update.put_reg (u : Update R V) (regs : R → V) :
    u.put (regs u.reg) regs = update regs u.reg (u.f (regs u.reg)) := by
  unfold Update.put
  split <;> rename_i h
  · rfl
  · rw [u.f_of_not_writes h, update_eq_self]

/-! ## 1. Updates that do not overlap -/

/-- No two threads have one register open. -/
def Excl (s : St R T V) : Prop :=
  ∀ t t' u v u' v', s.opened t = some (u, v) → s.opened t' = some (u', v') → u.reg = u'.reg → t = t'

/-- What a thread has read is what the register has. -/
def Fresh (s : St R T V) : Prop := ∀ t u v, s.opened t = some (u, v) → v = s.regs u.reg

/-- What the updates of a register make of its value, in their order. -/
def serial (l : List (Update R V)) (r : R) (v : V) : V := l.foldl (fun v u => if u.reg = r then u.f v else v) v

inductive Run : St R T V → List (Update R V) → St R T V → Prop
  | refl {s : St R T V} : Run s [] s
  | step {s t u : St R T V} {l l' : List (Update R V)} (hx : Excl s) (h : Step s l t) (rest : Run t l' u) :
      Run s (l ++ l') u

section Serial

variable {s t : St R T V} {l : List (Update R V)}

theorem Step.fresh (hx : Excl s) (hf : Fresh s) (h : Step s l t) : Fresh t := by
  cases h with
  | @load a u hn =>
    intro b u' v hb
    change update s.opened a _ b = _ at hb
    by_cases hba : b = a
    · subst hba
      rw [update_self] at hb
      cases hb
      rfl
    · rw [update_of_ne hba] at hb
      exact hf b u' v hb
  | @store a u v ha =>
    intro b u' v' hb
    change update s.opened a none b = _ at hb
    by_cases hba : b = a
    · subst hba
      rw [update_self] at hb
      cases hb
    · rw [update_of_ne hba] at hb
      have hne : u'.reg ≠ u.reg := fun he => hba (hx b a u' v' u v hb ha he)
      change v' = u.put v s.regs u'.reg
      unfold Update.put
      split
      · rw [update_of_ne hne]
        exact hf b u' v' hb
      · exact hf b u' v' hb

theorem Step.regs (hf : Fresh s) (h : Step s l t) (r : R) : t.regs r = serial l r (s.regs r) := by
  cases h with
  | load => rfl
  | @store a u v ha =>
    obtain rfl := hf a u v ha
    change u.put (s.regs u.reg) s.regs r = if u.reg = r then u.f (s.regs r) else s.regs r
    rw [u.put_reg]
    by_cases hr : u.reg = r
    · subst hr
      rw [update_self, if_pos rfl]
    · rw [update_of_ne (Ne.symm hr), if_neg hr]

/-- **Updates that never overlap on a register** come one after the other. -/
theorem Run.serial (hf : Fresh s) (h : Run s l t) (r : R) : t.regs r = Rmw.serial l r (s.regs r) := by
  induction h with
  | refl => rfl
  | step hx hs _ ih =>
    rw [ih (hs.fresh hx hf), hs.regs hf]
    exact (List.foldl_append ..).symm

end Serial

/-! ## 2. Two updates that overlap -/

/-- The third list takes its elements from the first two, each in its order. -/
inductive Merges {α : Type} : List α → List α → List α → Prop
  | nil : Merges [] [] []
  | left {a : α} {l m n : List α} (h : Merges l m n) : Merges (a :: l) m (a :: n)
  | right {a : α} {l m n : List α} (h : Merges l m n) : Merges l (a :: m) (a :: n)

inductive Ev (R T V : Type) where
  | load (t : T) (u : Update R V) | store (t : T)

def St.next (s : St R T V) : Ev R T V → St R T V
  | .load t u => s.load t u
  | .store t =>
    match s.opened t with
    | none => s
    | some (u, v) => s.store t u v

/-- The registers after the steps of two threads, in the order `evs`. -/
def after (regs : R → V) (evs : List (Ev R Bool V)) : R → V :=
  (evs.foldl St.next ⟨regs, fun _ => none⟩).regs

/-- The steps of one thread. -/
def Update.steps (u : Update R V) (t : Bool) : List (Ev R Bool V) := [.load t u, .store t]

/-- The value that two updates leave which have both read `v`, `w` being the last to write. -/
def late (u w : Update R V) (v : V) : V := if w.Writes v then w.f v else u.f v

/-- It is one that an order of the two gives. -/
def LateOk (u w : Update R V) (v : V) : Prop := late u w v = w.f (u.f v) ∨ late u w v = u.f (w.f v)

theorem put_put (u w : Update R V) (regs : R → V) (h : u.reg = w.reg) :
    w.put (regs u.reg) (u.put (regs u.reg) regs) = update regs u.reg (late u w (regs u.reg)) := by
  rw [u.put_reg]
  unfold Update.put late
  split
  · rw [← h, Function.update_idem]
  · rfl

theorem put_put_of_ne (u w : Update R V) (regs : R → V) (h : u.reg ≠ w.reg) :
    w.put (regs w.reg) (u.put (regs u.reg) regs) = w.on (u.on regs) := by
  unfold Update.on
  rw [u.put_reg, update_of_ne (Ne.symm h)]

theorem on_on (u w : Update R V) (regs : R → V) (h : u.reg = w.reg) :
    w.on (u.on regs) = update regs u.reg (w.f (u.f (regs u.reg))) := by
  unfold Update.on
  rw [u.put_reg, w.put_reg, ← h, update_self, Function.update_idem]

/-- What the steps come to: the updates in one order or the other, or both from the old registers. -/
theorem after_cases {u w : Update R V} (regs : R → V) {evs : List (Ev R Bool V)}
    (h : Merges (u.steps true) (w.steps false) evs) :
    after regs evs = w.on (u.on regs) ∨ after regs evs = u.on (w.on regs) ∨
      after regs evs = w.put (regs w.reg) (u.put (regs u.reg) regs) ∨
      after regs evs = u.put (regs u.reg) (w.put (regs w.reg) regs) := by
  unfold Update.steps at h
  -- by the thread that takes the first step, the second and so on
  cases h with
  | left h =>
    cases h with
    | left h =>
      cases h with
      | right h =>
        cases h with
        | right h => cases h; exact .inl rfl
    | right h =>
      cases h with
      | left h =>
        cases h with
        | right h => cases h; exact .inr (.inr (.inl rfl))
      | right h =>
        cases h with
        | left h => cases h; exact .inr (.inr (.inr rfl))
  | right h =>
    cases h with
    | right h =>
      cases h with
      | left h =>
        cases h with
        | left h => cases h; exact .inr (.inl rfl)
    | left h =>
      cases h with
      | left h =>
        cases h with
        | right h => cases h; exact .inr (.inr (.inl rfl))
      | right h =>
        cases h with
        | left h => cases h; exact .inr (.inr (.inr rfl))

/-- **Two updates end as one order of them does**, whatever the order of their steps, if and only if they are of two
    registers, or neither loses the other where both have read the same value. -/
theorem race_iff (u w : Update R V) (regs : R → V) :
    (∀ evs, Merges (u.steps true) (w.steps false) evs →
      after regs evs = w.on (u.on regs) ∨ after regs evs = u.on (w.on regs)) ↔
      (u.reg = w.reg → LateOk u w (regs u.reg) ∧ LateOk w u (regs u.reg)) := by
  constructor
  · intro h he
    have hinj := Function.update_injective regs u.reg
    have h1 := h [.load true u, .load false w, .store true, .store false] (.left (.right (.left (.right .nil))))
    have h2 := h [.load true u, .load false w, .store false, .store true] (.left (.right (.right (.left .nil))))
    change w.put (regs w.reg) (u.put (regs u.reg) regs) = _ ∨ w.put (regs w.reg) (u.put (regs u.reg) regs) = _ at h1
    change u.put (regs u.reg) (w.put (regs w.reg) regs) = _ ∨ u.put (regs u.reg) (w.put (regs w.reg) regs) = _ at h2
    have hu := on_on w u regs he.symm
    rw [← he] at h1 h2 hu
    rw [put_put u w regs he, on_on u w regs he, hu] at h1
    rw [he, put_put w u regs he.symm, ← he, on_on u w regs he, hu] at h2
    exact ⟨h1.imp (fun h => hinj h) (fun h => hinj h), (h2.imp (fun h => hinj h) (fun h => hinj h)).symm⟩
  · intro h evs hevs
    by_cases he : u.reg = w.reg
    · obtain ⟨h1, h2⟩ := h he
      have hu := on_on w u regs he.symm
      rw [← he] at hu
      obtain h | h | h | h := after_cases regs hevs
      · exact .inl h
      · exact .inr h
      · rw [h, ← he, put_put u w regs he, on_on u w regs he, hu]
        exact h1.imp (congrArg _) (congrArg _)
      · rw [h, he, put_put w u regs he.symm, ← he, on_on u w regs he, hu]
        exact (h2.imp (congrArg _) (congrArg _)).symm
    · obtain h | h | h | h := after_cases regs hevs
      · exact .inl h
      · exact .inr h
      · exact .inl (h.trans (put_put_of_ne u w regs he))
      · exact .inr (h.trans (put_put_of_ne w u regs (Ne.symm he)))

/-! ## 3. Bits of a register -/

/-- `(v & ~clr) | set`. -/
def setBits {w : Nat} (clr set v : BitVec w) : BitVec w := (v &&& ~~~clr) ||| set

section Bits

variable {w : Nat} {v c m c' m' f : BitVec w}

theorem setBits_field (h : c ||| m = f) : setBits c m v &&& f = m := by
  unfold setBits
  subst h
  ext i hi
  simp only [BitVec.getElem_and, BitVec.getElem_or, BitVec.getElem_not]
  grind

theorem setBits_frame (h : (c ||| m) &&& f = 0#w) : setBits c m v &&& f = v &&& f := by
  unfold setBits
  ext i hi
  have hb := congrArg (fun x : BitVec w => x[i]) h
  simp only [BitVec.getElem_and, BitVec.getElem_or, BitVec.getElem_not, BitVec.getElem_zero] at hb ⊢
  grind

/-- The later of two updates of the same bits is what counts. -/
theorem setBits_setBits (h : c ||| m = c' ||| m') : setBits c m (setBits c' m' v) = setBits c m v := by
  unfold setBits
  ext i hi
  have hb := congrArg (fun x : BitVec w => x[i]) h
  simp only [BitVec.getElem_and, BitVec.getElem_or, BitVec.getElem_not] at hb ⊢
  grind

/-- Updates of different bits do not mind their order. -/
theorem setBits_comm (h : (c ||| m) &&& (c' ||| m') = 0#w) :
    setBits c' m' (setBits c m v) = setBits c m (setBits c' m' v) := by
  unfold setBits
  ext i hi
  have hb := congrArg (fun x : BitVec w => x[i]) h
  simp only [BitVec.getElem_and, BitVec.getElem_or, BitVec.getElem_not, BitVec.getElem_zero] at hb ⊢
  grind

/-- And one that finds nothing to do after the other would not have had before. -/
theorem setBits_stays (h : (c ||| m) &&& (c' ||| m') = 0#w) (he : setBits c' m' (setBits c m v) = setBits c m v) :
    setBits c' m' v = v := by
  unfold setBits at *
  ext i hi
  have h1 := congrArg (fun x : BitVec w => x[i]) h
  have h2 := congrArg (fun x : BitVec w => x[i]) he
  simp only [BitVec.getElem_and, BitVec.getElem_or, BitVec.getElem_not, BitVec.getElem_zero] at h1 h2 ⊢
  grind

end Bits

end P4Linux.Rmw
