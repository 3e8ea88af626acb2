import P4Linux.Lib.Hierarchy

/-!
# p4_psram.c: the non-cacheable alias

`p4_psram_alias_test`. What lies at the alias is what the test is to find out: the memory behind the caches, the same
memory through them, or another one. The caches fetch and give up the line between any two accesses.

* `alias_sound` -- **the test accepts no alias but the right one**, whatever the caches do in between;
* `alias_accepts_iff` -- the right one it accepts if and only if the caches had no copy when it began, while nothing
  is given up.
-/

namespace P4Linux.Boot

open Hierarchy

/-- What the alias reaches. -/
inductive AliasKind where
  | uncached | cached | elsewhere
  deriving DecidableEq, Repr

/-- The word that is tested, and the one at the alias if that is another. -/
structure AliasWorld where
  line : Line (BitVec 32)
  other : BitVec 32

/-- The caches are left alone. -/
def AliasWorld.idle (w : AliasWorld) (es : List (Ev (BitVec 32))) : AliasWorld := { w with line := run w.line es }

/-- `*cached = v`. -/
def AliasWorld.store (w : AliasWorld) (v : BitVec 32) : AliasWorld := { w with line := step w.line (.store v) }

/-- `*uncached = v`. -/
def AliasWorld.storeAlias (w : AliasWorld) (k : AliasKind) (v : BitVec 32) : AliasWorld :=
  match k with
  | .uncached => { w with line := step w.line (.dma v) }
  | .cached => w.store v
  | .elsewhere => { w with other := v }

/-- `*uncached`. -/
def AliasWorld.loadAlias (w : AliasWorld) : AliasKind → BitVec 32
  | .uncached => w.line.ram
  | .cached => w.line.reads
  | .elsewhere => w.other

/-- What is printed, and the verdict. -/
structure AliasResult where
  cachedSeesAlias : BitVec 32
  aliasSeesCached : BitVec 32
  aliasReadsOwn : BitVec 32
  verdict : Bool
  deriving DecidableEq, Repr

/-- `p4_psram_alias_test`; `es i` is what the caches do after access `i`. -/
def psramAliasTest (k : AliasKind) (es : Nat → List (Ev (BitVec 32))) (w : AliasWorld) : AliasResult :=
  let w := (w.storeAlias k 0x11111111#32).idle (es 0)
  let cachedSeesAlias := w.line.reads
  let w := ((w.idle (es 1)).store 0x22222222#32).idle (es 2)
  let aliasSeesCached := w.loadAlias k
  let w := ((w.idle (es 3)).storeAlias k 0x33333333#32).idle (es 4)
  let aliasReadsOwn := w.loadAlias k
  let reachesSameMemory : Bool := cachedSeesAlias = 0x11111111#32
  let bypassesCache : Bool := aliasSeesCached = 0x11111111#32
  ⟨cachedSeesAlias, aliasSeesCached, aliasReadsOwn, reachesSameMemory && bypassesCache⟩

variable {k : AliasKind} {es : Nat → List (Ev (BitVec 32))} {w : AliasWorld} {v : BitVec 32}

theorem holds_run {s : Line (BitVec 32)} {l : List (Ev (BitVec 32))} (h : work l = []) (hs : Holds v s) :
    Holds v (run s l) :=
  run_nil (fun _ _ => holds_step) h hs

/-- A store is what the CPU reads. -/
theorem holds_store {s : Line (BitVec 32)} (h : Agree s) (u : BitVec 32) : Holds u (step s (.store u)) :=
  step_quiet (e := .store u) rfl h

/-- **No alias but the right one is accepted**: not one that goes through the caches, and not one of other memory,
    unless the test's first value was there before. -/
theorem alias_sound (ha : Agree w.line) (hne : w.line.reads ≠ 0x11111111#32) (hes : ∀ i, work (es i) = [])
    (h : (psramAliasTest k es w).verdict = true) : k = .uncached := by
  obtain ⟨h1, h2⟩ : (psramAliasTest k es w).cachedSeesAlias = 0x11111111#32 ∧
      (psramAliasTest k es w).aliasSeesCached = 0x11111111#32 := by
    simpa [psramAliasTest] using h
  cases k with
  | uncached => rfl
  | cached =>
    -- the second store went through the same line
    have hfirst := holds_run (hes 0) (holds_store ha 0x11111111#32)
    have hsecond := holds_run (hes 2) (holds_store (holds_run (hes 1) hfirst).1 0x22222222#32)
    have hsees := hsecond.2.symm.trans h2
    exact absurd hsees (by decide)
  | elsewhere =>
    have hfirst := holds_run (hes 0) (⟨ha, rfl⟩ : Holds w.line.reads w.line)
    exact absurd (hfirst.2.symm.trans h1) hne

/-- The caches fetch, and give nothing up. -/
def Fetches (l : List (Ev (BitVec 32))) : Prop := ∀ e ∈ l, e = .fillI ∨ e = .fillD ∨ e = .fillL2

/-- A fetch changes neither the memory nor what is read. -/
theorem run_fetches {s : Line (BitVec 32)} {l : List (Ev (BitVec 32))} (h : Fetches l) :
    (run s l).ram = s.ram ∧ (run s l).reads = s.reads := by
  induction l generalizing s with
  | nil => exact ⟨rfl, rfl⟩
  | cons e l ih =>
    obtain ⟨h1, h2⟩ := ih (s := step s e) fun e' he' => h e' (List.mem_cons_of_mem _ he')
    have hstep : (step s e).ram = s.ram ∧ (step s e).reads = s.reads := by
      obtain ⟨code, data, l2, ram⟩ := s
      obtain rfl | rfl | rfl := h e List.mem_cons_self
      all_goals
        cases code <;> cases data <;> cases l2 <;> simp [step, Line.reads, Line.below]
    exact ⟨h1.trans hstep.1, h2.trans hstep.2⟩

/-- **The right alias is accepted** if and only if the line was in neither cache when the test began. -/
theorem alias_accepts_iff (hne : w.line.reads ≠ 0x11111111#32) (hes : ∀ i, Fetches (es i)) :
    (psramAliasTest .uncached es w).verdict = true ↔ w.line.data = none ∧ w.line.l2 = none := by
  have hsees : (psramAliasTest .uncached es w).aliasSeesCached = 0x11111111#32 := by
    change (run (step (run (run (step w.line (.dma 0x11111111#32)) (es 0)) (es 1)) (.store 0x22222222#32)) (es 2)).ram = _
    rw [(run_fetches (hes 2)).1]
    change (run (run (step w.line (.dma 0x11111111#32)) (es 0)) (es 1)).ram = _
    rw [(run_fetches (hes 1)).1, (run_fetches (hes 0)).1]
    rfl
  have hfirst : (psramAliasTest .uncached es w).cachedSeesAlias = (step w.line (.dma 0x11111111#32)).reads :=
    (run_fetches (hes 0)).2
  have hverdict : (psramAliasTest .uncached es w).verdict = true ↔
      (psramAliasTest .uncached es w).cachedSeesAlias = 0x11111111#32 ∧
        (psramAliasTest .uncached es w).aliasSeesCached = 0x11111111#32 := by
    simp [psramAliasTest]
  rw [hverdict, hsees, and_iff_left rfl, hfirst]
  obtain ⟨⟨code, data, l2, ram⟩, other⟩ := w
  cases data with
  | some p => simpa [step, Line.reads] using hne
  | none =>
    cases l2 with
    | some p => simpa [step, Line.reads, Line.below] using hne
    | none => simp [step, Line.reads, Line.below]

/-- The line as the memory test left it, not in the caches any more. -/
def tested : AliasWorld := ⟨⟨none, none, none, 0xEDB5A5A5#32⟩, 0#32⟩

theorem alias_sound_tested :
    (psramAliasTest .uncached (fun _ => []) tested).verdict = true ∧ AliasKind.uncached = .uncached := by
  have ha : Agree tested.line := ⟨(fun v hv => by cases hv), (fun v hv => by cases hv)⟩
  have h : (psramAliasTest .uncached (fun _ => []) tested).verdict = true := by decide
  exact ⟨h, alias_sound ha (by decide) (fun _ => by rfl) h⟩

theorem alias_accepts_tested : (psramAliasTest .uncached (fun _ => [.fillD]) tested).verdict = true ↔
    tested.line.data = none ∧ tested.line.l2 = none :=
  alias_accepts_iff (by decide) fun _ e he => .inr (.inl (by simpa using he))

end P4Linux.Boot
