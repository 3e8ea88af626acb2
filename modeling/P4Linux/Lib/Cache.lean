import Mathlib.Logic.Function.Basic
import Mathlib.Data.List.Induction

/-!
# A write-back cache

A memory, and a cache of some of its lines. A device writes to the memory only.

* `exec` -- a trace of what the CPU, the cache and a device do;
* `Kept` -- **what was stored** is in the line or, of a line that is not dirty, in memory;
* `Guarded`, `Guarded.sound` -- a discipline under which dropping a region loses nothing, whatever the cache and
  the device do in between;
* `loaded_eq` -- what was stored is what is **loaded**;
* `held_iff_fetches` -- **a word that is held** is what the memory had when the line was fetched.
-/

namespace P4Linux.Cache

/-! ## 1. The machine -/

/-- A line that is held; only the words of the line count. -/
structure Copy (α ν : Type*) where
  dirty : Bool
  word : α → ν

structure State (α κ ν : Type*) where
  mem : α → ν
  copy : κ → Option (Copy α ν)

inductive Op (α κ ν : Type*) where
  /-- the cache fetches a line, or gives it up, at any moment -/
  | fill (l : κ)
  | evict (l : κ)
  /-- a device writes a word -/
  | put (a : α) (v : ν)
  | load (a : α)
  | store (a : α) (v : ν)
  /-- of every line of the region -/
  | writeback
  | drop
  /-- a device is started -/
  | signal

variable {α κ ν : Type*}

/-- What the CPU does because a program says so. -/
def Op.cpu : Op α κ ν → Bool
  | .fill _ => false
  | .evict _ => false
  | .put _ _ => false
  | _ => true

/-- A line is dirty if a store has changed it. -/
def State.Dirty (s : State α κ ν) (l : κ) : Prop := ∃ c, s.copy l = some c ∧ c.dirty = true

/-- The line as an access finds it. -/
def State.held (s : State α κ ν) (l : κ) : Copy α ν := (s.copy l).getD ⟨false, s.mem⟩

variable [DecidableEq α] [DecidableEq κ] (line : α → κ) (region : κ → Bool)

def State.fill (s : State α κ ν) (l : κ) : State α κ ν :=
  { s with copy := Function.update s.copy l (some (s.held l)) }

def State.store (s : State α κ ν) (a : α) (v : ν) : State α κ ν :=
  { s with copy := Function.update s.copy (line a) (some ⟨true, Function.update (s.held (line a)).word a v⟩) }

/-- What a load returns. -/
def State.value (s : State α κ ν) (a : α) : ν := (s.held (line a)).word a

/-- The dirty lines of `p` are written to memory. -/
def State.writeback (s : State α κ ν) (p : κ → Bool) : State α κ ν where
  mem a :=
    match s.copy (line a) with
    | some c => if p (line a) && c.dirty then c.word a else s.mem a
    | none => s.mem a
  copy l := if p l then (s.copy l).map fun c => { c with dirty := false } else s.copy l

def State.drop (s : State α κ ν) (p : κ → Bool) : State α κ ν :=
  { s with copy := fun l => if p l then none else s.copy l }

def apply (s : State α κ ν) : Op α κ ν → State α κ ν
  | .fill l => s.fill l
  | .evict l => (s.writeback line (· = l)).drop (· = l)
  | .put a v => { s with mem := Function.update s.mem a v }
  | .load a => s.fill (line a)
  | .store a v => s.store line a v
  | .writeback => s.writeback line region
  | .drop => s.drop region
  | .signal => s

def exec (ops : List (Op α κ ν)) (s : State α κ ν) : State α κ ν := ops.foldl (apply line region) s

theorem exec_append (ops ops' : List (Op α κ ν)) (s : State α κ ν) :
    exec line region (ops ++ ops') s = exec line region ops' (exec line region ops s) :=
  List.foldl_append

/-! ## 2. What was stored -/

/-- The value that the CPU stored last, unless a device has written the word since. -/
def note (last : α → Option ν) : Op α κ ν → α → Option ν
  | .store a v => Function.update last a (some v)
  | .put a _ => Function.update last a none
  | _ => last

def lastStore (ops : List (Op α κ ν)) : α → Option ν := ops.foldl note fun _ => none

/-- What was stored in the region is in its line and, if that is not dirty, in memory. -/
def Kept (s : State α κ ν) (last : α → Option ν) : Prop :=
  ∀ a v, region (line a) = true → last a = some v →
    (∀ c, s.copy (line a) = some c → c.word a = v) ∧ (¬s.Dirty (line a) → s.mem a = v)

def Clean (s : State α κ ν) : Prop := ∀ l, region l = true → ¬s.Dirty l

variable {line region}

omit [DecidableEq α] [DecidableEq κ] in
/-- What a dirty line has is what the memory gets of it. -/
theorem Kept.word {s : State α κ ν} {last : α → Option ν} (h : Kept line region s last) {a : α} {v : ν}
    (hr : region (line a) = true) (hv : last a = some v) : (s.held (line a)).word a = v := by
  obtain ⟨hcopy, hmem⟩ := h a v hr hv
  unfold State.held
  cases hc : s.copy (line a) with
  | some c => exact hcopy c hc
  | none =>
    refine hmem fun hd => ?_
    obtain ⟨c, hc', -⟩ := hd
    rw [hc] at hc'
    cases hc'

omit [DecidableEq α] in
/-- A line that is fetched has what was stored. -/
theorem fill_kept {s : State α κ ν} {last : α → Option ν} (h : Kept line region s last) (l : κ) :
    Kept line region (s.fill l) last := by
  intro a v hr hv
  unfold State.fill State.Dirty
  dsimp only
  by_cases hl : line a = l
  · rw [hl, Function.update_self]
    refine ⟨fun c hc => ?_, fun hd => ?_⟩
    · obtain rfl := Option.some.inj hc
      rw [← hl]
      exact h.word hr hv
    · refine (h a v hr hv).2 fun ⟨c, hc, hdirty⟩ => hd ⟨c, ?_, hdirty⟩
      unfold State.held
      rw [← hl, hc]
      rfl
  · rw [Function.update_of_ne hl]
    exact h a v hr hv

theorem store_kept {s : State α κ ν} {last : α → Option ν} (h : Kept line region s last) (b : α) (w : ν) :
    Kept line region (s.store line b w) (Function.update last b (some w)) := by
  intro a v hr hv
  unfold State.store State.Dirty
  dsimp only
  by_cases hl : line a = line b
  · rw [hl, Function.update_self]
    refine ⟨fun c hc => ?_, fun hd => absurd ⟨_, rfl, rfl⟩ hd⟩
    obtain rfl := Option.some.inj hc
    by_cases hab : a = b
    · subst hab
      rw [Function.update_self] at hv
      exact (Function.update_self ..).trans (Option.some.inj hv)
    · rw [Function.update_of_ne hab] at hv
      exact (Function.update_of_ne hab ..).trans (hl ▸ h.word hr hv)
  · rw [Function.update_of_ne hl]
    rw [Function.update_of_ne fun hab => hl (congrArg line hab)] at hv
    exact h a v hr hv

omit [DecidableEq α] [DecidableEq κ] in
/-- Writing lines back takes what was stored to memory. -/
theorem writeback_kept {s : State α κ ν} {last : α → Option ν} (h : Kept line region s last) (p : κ → Bool) :
    Kept line region (s.writeback line p) last := by
  intro a v hr hv
  obtain ⟨hcopy, hmem⟩ := h a v hr hv
  unfold State.writeback State.Dirty
  dsimp only
  cases hc : s.copy (line a) with
  | none =>
    refine ⟨fun c hc' => ?_, fun _ => hmem fun ⟨c, hc', _⟩ => ?_⟩
    · split at hc' <;> cases hc'
    · rw [hc] at hc'
      cases hc'
  | some c =>
    refine ⟨fun c' hc' => ?_, fun hd => ?_⟩
    · split at hc' <;> obtain rfl := Option.some.inj hc' <;> exact hcopy c hc
    · dsimp only
      split
      · exact hcopy c hc
      · rename_i hno
        refine hmem fun ⟨c', hc', hdirty⟩ => ?_
        obtain rfl := Option.some.inj (hc.symm.trans hc')
        cases hp : p (line a) with
        | true => exact hno (by rw [hp, hdirty]; rfl)
        | false => exact hd ⟨c, by rw [hp]; rfl, hdirty⟩

omit [DecidableEq α] [DecidableEq κ] in
/-- Dropping lines that are not dirty loses nothing. -/
theorem drop_kept {s : State α κ ν} {last : α → Option ν} (h : Kept line region s last) {p : κ → Bool}
    (hp : ∀ l, region l = true → p l = true → ¬s.Dirty l) : Kept line region (s.drop p) last := by
  intro a v hr hv
  obtain ⟨hcopy, hmem⟩ := h a v hr hv
  unfold State.drop State.Dirty
  dsimp only
  cases hpa : p (line a) with
  | true => exact ⟨fun c hc => (by cases hc), fun _ => hmem (hp _ hr hpa)⟩
  | false => exact ⟨hcopy, hmem⟩

omit [DecidableEq α] [DecidableEq κ] in
theorem writeback_clean (s : State α κ ν) (p : κ → Bool) {l : κ} (hl : p l = true) :
    ¬(s.writeback line p).Dirty l := by
  intro hdirty
  obtain ⟨c, hc, hd⟩ := hdirty
  unfold State.writeback at hc
  dsimp only at hc
  rw [if_pos hl] at hc
  obtain ⟨c', -, rfl⟩ := Option.map_eq_some_iff.mp hc
  cases hd

/-- **One step keeps what was stored** in the lines of `kept`, if a region is dropped only when it is clean. -/
theorem apply_kept {kept : κ → Bool} {s : State α κ ν} {last : α → Option ν} (h : Kept line kept s last)
    (op : Op α κ ν) (hdrop : op = .drop → Clean region s) :
    Kept line kept (apply line region s op) (note last op) := by
  cases op with
  | fill l => exact fill_kept h l
  | evict l => exact drop_kept (writeback_kept h _) fun k _ hk => writeback_clean s _ hk
  | put b w =>
    intro a v hr hv
    have hv : Function.update last b none a = some v := hv
    by_cases hab : a = b
    · rw [hab, Function.update_self] at hv
      cases hv
    · rw [Function.update_of_ne hab] at hv
      obtain ⟨hcopy, hmem⟩ := h a v hr hv
      exact ⟨hcopy, fun hd => (Function.update_of_ne hab ..).trans (hmem hd)⟩
  | load a => exact fill_kept h (line a)
  | store a v => exact store_kept h a v
  | writeback => exact writeback_kept h region
  | drop => exact drop_kept h fun l _ hl => hdrop rfl l hl
  | signal => exact h

/-! ## 3. A region that is maintained by hand -/

/-- What is done of a clean region only. -/
def Op.guarded : Op α κ ν → Bool
  | .drop => true
  | .signal => true
  | _ => false

/-- Whether the region is known to be clean after an operation. -/
def Op.leaves (clean : Bool) : Op α κ ν → Bool
  | .store _ _ => false
  | .writeback => true
  | _ => clean

/-- A program that drops the region, and starts the device, only if it has stored nothing since it wrote the
    region back. -/
def Guarded : Bool → List (Op α κ ν) → Prop
  | _, [] => True
  | clean, op :: ops => (op.guarded = true → clean = true) ∧ Guarded (op.leaves clean) ops

omit [DecidableEq α] in
theorem fill_clean {s : State α κ ν} (h : Clean region s) (l : κ) : Clean region (s.fill l) := by
  intro k hk hdirty
  obtain ⟨c, hc, hd⟩ := hdirty
  unfold State.fill at hc
  dsimp only at hc
  by_cases hkl : k = l
  · rw [hkl, Function.update_self] at hc
    obtain rfl := Option.some.inj hc
    unfold State.held at hd
    cases hcopy : s.copy l with
    | none =>
      rw [hcopy] at hd
      cases hd
    | some c =>
      rw [hcopy] at hd
      exact h k hk ⟨c, hkl ▸ hcopy, hd⟩
  · rw [Function.update_of_ne hkl] at hc
    exact h k hk ⟨c, hc, hd⟩

omit [DecidableEq α] [DecidableEq κ] in
theorem clean_writeback {s : State α κ ν} (h : Clean region s) (p : κ → Bool) :
    Clean region (s.writeback line p) := by
  intro k hk hdirty
  obtain ⟨c, hc, hd⟩ := hdirty
  have hc : (if p k = true then (s.copy k).map fun c => { c with dirty := false } else s.copy k) = some c := hc
  split at hc
  · obtain ⟨_, -, rfl⟩ := Option.map_eq_some_iff.mp hc
    cases hd
  · exact h k hk ⟨c, hc, hd⟩

omit [DecidableEq α] [DecidableEq κ] in
theorem clean_drop {s : State α κ ν} (h : Clean region s) (p : κ → Bool) : Clean region (s.drop p) := by
  intro k hk hdirty
  obtain ⟨c, hc, hd⟩ := hdirty
  have hc : (if p k = true then none else s.copy k) = some c := hc
  split at hc
  · cases hc
  · exact h k hk ⟨c, hc, hd⟩

/-- Only a store makes a line dirty. -/
theorem apply_clean {s : State α κ ν} (h : Clean region s) {op : Op α κ ν} (hop : ∀ a v, op ≠ .store a v) :
    Clean region (apply line region s op) := by
  cases op with
  | fill l => exact fill_clean h l
  | evict l => exact clean_drop (clean_writeback h _) _
  | put a v => exact h
  | load a => exact fill_clean h (line a)
  | store a v => exact absurd rfl (hop a v)
  | writeback => exact clean_writeback h _
  | drop => exact clean_drop h _
  | signal => exact h

/-- **Under the discipline** the region is clean whenever it is dropped, and whenever the device is started what
    was stored is in memory: induction on the trace, with whatever the cache and the device do in between. -/
theorem Guarded.sound {t : List (Op α κ ν)} {clean : Bool} (h : Guarded clean (t.filter Op.cpu))
    {s : State α κ ν} (hs : clean = true → Clean region s) {kept : κ → Bool} {last : α → Option ν}
    (hk : Kept line kept s last) {pre post : List (Op α κ ν)} {op : Op α κ ν} (ht : t = pre ++ op :: post)
    (hop : op.guarded = true) :
    Clean region (exec line region pre s) ∧ Kept line kept (exec line region pre s) (pre.foldl note last) := by
  induction pre generalizing t clean s last with
  | nil =>
    subst ht
    have hcpu : op.cpu = true := by
      cases op with
      | drop => rfl
      | signal => rfl
      | _ => cases hop
    rw [List.nil_append, List.filter_cons_of_pos hcpu] at h
    exact ⟨hs (h.1 hop), hk⟩
  | cons op' pre ih =>
    subst ht
    have hrest : Guarded (op'.leaves clean) ((pre ++ op :: post).filter Op.cpu) := by
      cases op' with
      | fill l => exact h
      | evict l => exact h
      | put a v => exact h
      | _ => exact h.2
    refine ih hrest (fun hc => ?_) (apply_kept hk op' fun hdrop => ?_) rfl
    · cases op' with
      | store a v => cases hc
      | writeback => exact fun l hl => writeback_clean s region hl
      | _ => exact apply_clean (hs hc) fun _ _ h => nomatch h
    · subst hdrop
      exact hs (h.1 rfl)

/-- Where nothing is dropped, what was stored is kept without a discipline. -/
theorem exec_kept {kept : κ → Bool} {t : List (Op α κ ν)} {s : State α κ ν} {last : α → Option ν}
    (h : Kept line kept s last) (hdrop : .drop ∉ t) : Kept line kept (exec line region t s) (t.foldl note last) := by
  induction t generalizing s last with
  | nil => exact h
  | cons op t ih =>
    refine ih (apply_kept h op fun hop => ?_) fun hin => hdrop (List.mem_cons_of_mem _ hin)
    subst hop
    exact absurd List.mem_cons_self hdrop

theorem exec_clean {t : List (Op α κ ν)} {s : State α κ ν} (h : Clean region s) (hstore : ∀ a v, .store a v ∉ t) :
    Clean region (exec line region t s) := by
  induction t generalizing s with
  | nil => exact h
  | cons op t ih =>
    refine ih (apply_clean h fun a v hop => ?_) fun a v hin => hstore a v (List.mem_cons_of_mem _ hin)
    subst hop
    exact hstore a v List.mem_cons_self

omit [DecidableEq α] [DecidableEq κ] in
/-- What the cache does by itself stores nothing and drops nothing by command. -/
theorem quiet_of_filter {t : List (Op α κ ν)} (h : t.filter Op.cpu = []) :
    .drop ∉ t ∧ (∀ a v, .store a v ∉ t) ∧ ∀ a, .load a ∉ t := by
  rw [List.filter_eq_nil_iff] at h
  exact ⟨fun hin => h _ hin rfl, fun a v hin => h _ hin rfl, fun a hin => h _ hin rfl⟩

/-- **A program whose last operation drops the region** leaves it clean and loses nothing of what was stored, in the
region or elsewhere. -/
theorem Guarded.flushed {pre post : List (Op α κ ν)} (h : Guarded false ((pre ++ .drop :: post).filter Op.cpu))
    (hpost : post.filter Op.cpu = []) {s : State α κ ν} {kept : κ → Bool} {last : α → Option ν}
    (hk : Kept line kept s last) : Clean region (exec line region (pre ++ .drop :: post) s) ∧
      Kept line kept (exec line region (pre ++ .drop :: post) s) ((pre ++ .drop :: post).foldl note last) := by
  obtain ⟨hdrop, hstore, -⟩ := quiet_of_filter hpost
  obtain ⟨hclean, hkept⟩ : Clean region (exec line region pre s) ∧
      Kept line kept (exec line region pre s) (pre.foldl note last) :=
    h.sound (fun hc => nomatch hc) hk rfl rfl
  obtain ⟨s', hs'⟩ : ∃ s', s' = apply line region (exec line region pre s) .drop := ⟨_, rfl⟩
  have hclean' : Clean region s' := hs' ▸ clean_drop hclean region
  have hkept' : Kept line kept s' (pre.foldl note last) := hs' ▸ apply_kept hkept .drop fun _ => hclean
  rw [exec_append, List.foldl_append]
  show Clean region (exec line region post (apply line region (exec line region pre s) .drop)) ∧
    Kept line kept (exec line region post (apply line region (exec line region pre s) .drop))
      (post.foldl note (pre.foldl note last))
  rw [← hs']
  exact ⟨exec_clean hclean' hstore, exec_kept hkept' hdrop⟩

omit [DecidableEq κ] in
/-- Without a device, what was stored last is what the CPU stored last. -/
theorem foldl_note_filter {t : List (Op α κ ν)} (hput : ∀ a v, .put a v ∉ t) (last : α → Option ν) :
    t.foldl note last = (t.filter Op.cpu).foldl note last := by
  induction t generalizing last with
  | nil => rfl
  | cons op t ih =>
    have ih := ih fun a v hin => hput a v (List.mem_cons_of_mem _ hin)
    cases op with
    | fill l => exact ih _
    | evict l => exact ih _
    | put a v => exact absurd List.mem_cons_self (hput a v)
    | load a => exact ih _
    | store a v => exact ih _
    | writeback => exact ih _
    | drop => exact ih _
    | signal => exact ih _

/-- A line that is not dirty has what memory has of the word. -/
def State.Coherent (line : α → κ) (s : State α κ ν) (a : α) : Prop :=
  ∀ c, s.copy (line a) = some c → c.dirty = false → c.word a = s.mem a

omit [DecidableEq α] [DecidableEq κ] in
/-- Of a coherent word it is known what it is before anything is stored. -/
theorem kept_coherent {s : State α κ ν} {last : α → Option ν}
    (hlast : ∀ a v, last a = some v → s.value line a = v ∧ s.Coherent line a) :
    Kept line (fun _ => true) s last := by
  intro a v _ hv
  obtain ⟨hvalue, hclean⟩ := hlast a v hv
  unfold State.value State.held at hvalue
  cases hc : s.copy (line a) with
  | none =>
    rw [hc] at hvalue
    exact ⟨fun c h => (nomatch h), fun _ => hvalue⟩
  | some c =>
    rw [hc] at hvalue
    refine ⟨fun c' h => ?_, fun hd => ?_⟩
    · obtain rfl := Option.some.inj h
      exact hvalue
    · cases hdirty : c.dirty with
      | true => exact absurd ⟨c, hc, hdirty⟩ hd
      | false => exact (hclean c hc hdirty).symm.trans hvalue

/-! ## 4. What is loaded -/

/-- What the loads of a trace return. -/
def loaded (line : α → κ) (region : κ → Bool) : List (Op α κ ν) → State α κ ν → List ν
  | [], _ => []
  | .load a :: t, s => s.value line a :: loaded line region t (apply line region s (.load a))
  | op :: t, s => loaded line region t (apply line region s op)

/-- The word that is loaded. -/
def Op.loads : Op α κ ν → Option α
  | .load a => some a
  | _ => none

omit [DecidableEq α] [DecidableEq κ] in
/-- Only the program loads. -/
theorem loads_filter (t : List (Op α κ ν)) : t.filterMap Op.loads = (t.filter Op.cpu).filterMap Op.loads := by
  rw [List.filterMap_filter]
  congr 1
  funext op
  cases op <;> rfl

theorem loaded_cons {op : Op α κ ν} {t : List (Op α κ ν)} {s : State α κ ν} : loaded line region (op :: t) s =
    (op.loads.map (s.value line)).toList ++ loaded line region t (apply line region s op) := by
  cases op <;> rfl

/-- **What was kept is loaded**, where nothing is dropped or written in between. -/
theorem loaded_eq {kept : κ → Bool} {t : List (Op α κ ν)} {s : State α κ ν} {last : α → Option ν} {v : α → ν}
    (h : Kept line kept s last) (hquiet : ∀ op ∈ t, op ≠ .drop ∧ note last op = last)
    (hv : ∀ a, .load a ∈ t → kept (line a) = true ∧ last a = some (v a)) :
    loaded line region t s = (t.filterMap Op.loads).map v := by
  induction t generalizing s with
  | nil => rfl
  | cons op t ih =>
    obtain ⟨hdrop, hnote⟩ := hquiet op List.mem_cons_self
    have hnext : Kept line kept (apply line region s op) (note last op) := apply_kept h op fun hop => absurd hop hdrop
    rw [hnote] at hnext
    have hrest := ih hnext (fun op hop => hquiet op (List.mem_cons_of_mem _ hop))
      fun a ha => hv a (List.mem_cons_of_mem _ ha)
    rw [loaded_cons, hrest]
    cases op with
    | load a =>
      obtain ⟨hkept, hlast⟩ := hv a List.mem_cons_self
      have hword : s.value line a = v a := h.word hkept hlast
      show s.value line a :: _ = v a :: _
      rw [hword]
      rfl
    | _ => rfl

/-! ## 5. What a line was fetched with -/

/-- An access to the line. -/
def Op.Touches (line : α → κ) (l : κ) : Op α κ ν → Prop
  | .fill k => k = l
  | .load b => line b = l
  | .store b _ => line b = l
  | _ => False

/-- Somewhere in the trace the line of the word is fetched, and what the memory has of the word is in `p`. -/
def Fetches (line : α → κ) (region : κ → Bool) (t : List (Op α κ ν)) (s : State α κ ν) (a : α) (p : ν → Prop) :
    Prop :=
  ∃ pre op post, t = pre ++ op :: post ∧ op.Touches line (line a) ∧
    (exec line region pre s).copy (line a) = none ∧ p ((exec line region pre s).mem a)

/-- A word of a line that is held is the word that was found there, or in memory, unless it is stored to. -/
theorem apply_held {s : State α κ ν} {op : Op α κ ν} {a : α} (hop : ∀ v, op ≠ .store a v) {c : Copy α ν}
    (h : (apply line region s op).copy (line a) = some c) :
    c.word a = (s.held (line a)).word a ∧ (s.copy (line a) = none → op.Touches line (line a)) := by
  have hsame : ∀ {c : Copy α ν}, s.copy (line a) = some c →
      c.word a = (s.held (line a)).word a ∧ (s.copy (line a) = none → op.Touches line (line a)) := by
    intro c hc
    unfold State.held
    rw [hc]
    exact ⟨rfl, fun h0 => nomatch h0⟩
  have hfill : ∀ {l : κ}, (l = line a → op.Touches line (line a)) → (s.fill l).copy (line a) = some c →
      c.word a = (s.held (line a)).word a ∧ (s.copy (line a) = none → op.Touches line (line a)) := by
    intro l htouch h
    unfold State.fill at h
    dsimp only at h
    by_cases hl : line a = l
    · rw [← hl, Function.update_self] at h
      obtain rfl := Option.some.inj h
      exact ⟨rfl, fun _ => htouch hl.symm⟩
    · rw [Function.update_of_ne hl] at h
      exact hsame h
  have hwriteback : ∀ {p : κ → Bool}, (s.writeback line p).copy (line a) = some c →
      c.word a = (s.held (line a)).word a ∧ (s.copy (line a) = none → op.Touches line (line a)) := by
    intro p h
    have h : (if p (line a) = true then (s.copy (line a)).map fun c => { c with dirty := false }
      else s.copy (line a)) = some c := h
    split at h
    · obtain ⟨c', hc', rfl⟩ := Option.map_eq_some_iff.mp h
      have hword := hsame hc'
      exact hword
    · exact hsame h
  have hdrop : ∀ {s' : State α κ ν} {p : κ → Bool}, (s'.drop p).copy (line a) = some c →
      s'.copy (line a) = some c := by
    intro s' p h
    have h : (if p (line a) = true then none else s'.copy (line a)) = some c := h
    split at h
    · cases h
    · exact h
  cases op with
  | fill l => exact hfill (fun hl => hl) h
  | evict l => exact hwriteback (hdrop h)
  | put b v => exact hsame h
  | load b => exact hfill (fun hl => hl) h
  | store b v =>
    unfold apply State.store at h
    dsimp only at h
    by_cases hl : line a = line b
    · rw [hl, Function.update_self] at h
      obtain rfl := Option.some.inj h
      have hab : a ≠ b := fun hab => hop v (hab ▸ rfl)
      exact ⟨(Function.update_of_ne hab ..).trans (hl ▸ rfl), fun _ => hl.symm⟩
    · rw [Function.update_of_ne hl] at h
      exact hsame h
  | writeback => exact hwriteback h
  | drop => exact hsame (hdrop h)
  | signal => exact hsame h

/-- **A word that is held** was in memory when its line was fetched: induction on the trace, from its end. -/
theorem exists_fetch {t : List (Op α κ ν)} {s : State α κ ν} {a : α} (hs : s.copy (line a) = none)
    (hstore : ∀ v, .store a v ∉ t) {c : Copy α ν} (h : (exec line region t s).copy (line a) = some c)
    {p : ν → Prop} (hp : p (c.word a)) : Fetches line region t s a p := by
  induction t using List.reverseRecOn generalizing c with
  | nil =>
    rw [show (exec line region [] s).copy (line a) = none from hs] at h
    cases h
  | append_singleton t op ih =>
    have ih := @ih fun v hv => hstore v (List.mem_append_left _ hv)
    rw [exec_append] at h
    have hop : ∀ v, op ≠ .store a v := by
      intro v heq
      subst heq
      exact hstore v (List.mem_append_right _ List.mem_cons_self)
    obtain ⟨hword, htouch⟩ := apply_held hop h
    cases hc : (exec line region t s).copy (line a) with
    | none =>
      refine ⟨t, op, [], rfl, htouch hc, hc, ?_⟩
      rw [hword, State.held, hc] at hp
      exact hp
    | some c' =>
      rw [hword, State.held, hc] at hp
      obtain ⟨pre, op', post, rfl, hrest⟩ := ih hc hp
      exact ⟨pre, op', post ++ [op], by rw [List.append_assoc, List.cons_append], hrest⟩

/-- In memory and in its line the word is in `p`. -/
def Shows (line : α → κ) (s : State α κ ν) (a : α) (p : ν → Prop) : Prop :=
  p (s.mem a) ∧ ∀ c, s.copy (line a) = some c → p (c.word a)

/-- A device that only writes what is in `p` leaves the word in `p`. -/
theorem apply_shows {s : State α κ ν} {op : Op α κ ν} {a : α} {p : ν → Prop} (h : Shows line s a p)
    (hop : ∀ v, op ≠ .store a v) (hput : ∀ v, op = .put a v → p v) : Shows line (apply line region s op) a p := by
  obtain ⟨hmem, hcopy⟩ := h
  constructor
  · have hwriteback : ∀ q : κ → Bool, p ((s.writeback line q).mem a) := by
      intro q
      unfold State.writeback
      dsimp only
      split
      · rename_i c hc
        split
        · exact hcopy c hc
        · exact hmem
      · exact hmem
    cases op with
    | put b v =>
      by_cases hab : a = b
      · subst hab
        show p (Function.update s.mem a v a)
        rw [Function.update_self]
        exact hput v rfl
      · show p (Function.update s.mem b v a)
        rw [Function.update_of_ne hab]
        exact hmem
    | evict l => exact hwriteback (· = l)
    | writeback => exact hwriteback region
    | _ => exact hmem
  · intro c hc
    rw [(apply_held hop hc).1]
    unfold State.held
    cases hs : s.copy (line a) with
    | none => exact hmem
    | some c' => exact hcopy c' hs

theorem exec_shows {t : List (Op α κ ν)} {s : State α κ ν} {a : α} {p : ν → Prop} (h : Shows line s a p)
    (hstore : ∀ v, .store a v ∉ t) (hput : ∀ v, .put a v ∈ t → p v) : Shows line (exec line region t s) a p := by
  induction t generalizing s with
  | nil => exact h
  | cons op t ih =>
    refine ih (apply_shows h ?_ ?_) (fun v hv => hstore v (List.mem_cons_of_mem _ hv))
      fun v hv => hput v (List.mem_cons_of_mem _ hv)
    · intro v heq
      subst heq
      exact hstore v List.mem_cons_self
    · intro v heq
      subst heq
      exact hput v List.mem_cons_self

/-- **A word that is held is in `p`** if and only if it was when its line was fetched, of a device that only
    writes what is in `p`. -/
theorem held_iff_fetches {t : List (Op α κ ν)} {s : State α κ ν} {a : α} (hs : s.copy (line a) = none)
    (hstore : ∀ v, .store a v ∉ t) {p : ν → Prop} (hput : ∀ v, .put a v ∈ t → p v) {c : Copy α ν}
    (h : (exec line region t s).copy (line a) = some c) : p (c.word a) ↔ Fetches line region t s a p := by
  constructor
  · exact exists_fetch hs hstore h
  · intro hfetch
    obtain ⟨pre, op, post, rfl, -, hnone, hp⟩ := hfetch
    rw [exec_append] at h
    have hshows : Shows line (exec line region pre s) a p := by
      refine ⟨hp, fun c hc => ?_⟩
      rw [hnone] at hc
      cases hc
    exact (exec_shows hshows (fun v hv => hstore v (List.mem_append_right _ hv))
      fun v hv => hput v (List.mem_append_right _ hv)).2 c h

end P4Linux.Cache
