import Mathlib.Data.BitVec
import Mathlib.Logic.Function.Basic

/-!
# The interrupt controller: from the device tree to a handler

`irq-esp32p4-clic.c` of patch 0001, and its hunk in `irq-riscv-intc.c`. A specifier of the device tree names a slot,
a source of the interrupt matrix and a trigger; the driver notes the last two when it reads the specifier
(`domainXlate`) and puts them into the registers when the slot is mapped (`domainMap`). The interrupt core does the
first for every specifier and the second once for a slot.

* `routed_iff` -- every source comes to the handler of **its own slot** if and only if slots and sources are in
  range and no slot has two sources, and no source two slots;
* `acks_right_iff` -- an ack clears the latch of every edge slot and **leaves every level slot alone**, in every
  state of a run, if and only if no specifier gives a mapped slot another trigger.
-/

namespace P4Linux.Kernel.Clic

open Function (update update_self update_of_ne update_apply)

/-! ## 1. The driver -/

/-- IRQ_TYPE_EDGE_RISING and IRQ_TYPE_LEVEL_HIGH. -/
def irqTypeEdgeRising : Nat := 1
def irqTypeLevelHigh : Nat := 4

def clicNumIrqs : Nat := 240

/-- CLIC_INTATTR_MMODE_LEVEL, CLIC_INTATTR_MMODE_EDGE and CLIC_INTCTL_MAX. -/
def attrLevel : Nat := 0xC0
def attrEdge : Nat := 0xC2
def intctlMax : Nat := 0xFF

/-- `handle_edge_irq` and `handle_level_irq`. -/
inductive Flow where
  | edge | level
  deriving DecidableEq, Repr

/-- The registers of the controller by slot and of the matrix by source, and what the driver notes. -/
structure Ctrl where
  intip : Nat → Nat
  intie : Nat → Nat
  intattr : Nat → Nat
  intctl : Nat → Nat
  intmtx : Nat → Nat
  /-- `clic_intmtx_base` is there -/
  hasIntmtx : Bool
  intmtxSource : Nat → Nat
  trigEdge : Nat → Bool
  /-- what `irq_domain_set_info` has installed: the mapping of a slot -/
  flow : Nat → Option Flow

def irqMask (c : Ctrl) (hwirq : Nat) : Ctrl := { c with intie := update c.intie hwirq 0 }

def irqUnmask (c : Ctrl) (hwirq : Nat) : Ctrl := { c with intie := update c.intie hwirq 1 }

def irqAck (c : Ctrl) (hwirq : Nat) : Ctrl :=
  if c.trigEdge hwirq then { c with intip := update c.intip hwirq 0 } else c

def irqSetType (c : Ctrl) (hwirq type : Nat) : Ctrl :=
  let edge := type == irqTypeEdgeRising
  { c with
    trigEdge := update c.trigEdge hwirq edge
    intattr := update c.intattr hwirq (if edge then attrEdge else attrLevel) }

def domainMap (c : Ctrl) (hwirq : Nat) : Ctrl :=
  { c with
    intmtx :=
      if c.hasIntmtx ∧ c.intmtxSource hwirq ≠ 0 then update c.intmtx (c.intmtxSource hwirq) hwirq else c.intmtx
    intattr := update c.intattr hwirq (if c.trigEdge hwirq then attrEdge else attrLevel)
    intctl := update c.intctl hwirq intctlMax
    flow := update c.flow hwirq (some (if c.trigEdge hwirq then .edge else .level)) }

/-- The driver's notes, `*out_hwirq` and `*out_type`; `none` is -EINVAL. -/
def domainXlate (c : Ctrl) (intspec : List Nat) : Option (Ctrl × Nat × Nat) :=
  match intspec with
  | [] => none
  | slot :: rest =>
    if slot ≥ clicNumIrqs then none
    else
      let source := match rest with
        | src :: _ => update c.intmtxSource slot (src % 2 ^ 8)
        | [] => c.intmtxSource
      let (edge, type) := match rest with
        | _ :: type :: _ => (type == irqTypeEdgeRising, type)
        | _ => (false, irqTypeLevelHigh)
      some ({ c with intmtxSource := source, trigEdge := update c.trigEdge slot edge }, slot, type)

/-- `irq_create_fwspec_mapping`, as far as it calls the domain. The interrupt core is not part of the repository;
    as it is documented, it gives a specifier to `xlate`, and the slot to `map` if it is not mapped yet. -/
def createMapping (c : Ctrl) (intspec : List Nat) : Ctrl :=
  match domainXlate c intspec with
  | none => c
  | some (c', hwirq, _) => if (c'.flow hwirq).isSome then c' else domainMap c' hwirq

/-- Who gets an interrupt. -/
inductive Target where
  | clic (slot : Nat) | intc (cause : Nat) | unhandled
  deriving DecidableEq, Repr

/-- `riscv_intc_irq`, with `regs->cause`. -/
def intcIrq (c : Ctrl) (regsCause : BitVec 32) : Target :=
  let cause := regsCause &&& ~~~0x80000000#32
  let clicId := (cause &&& 0xFF#32).toNat
  if clicId ≥ 16 then if (c.flow clicId).isSome then .clic clicId else .unhandled
  else .intc clicId

/-! ## 2. Specifiers of three cells -/

/-- `<clic_slot intmtx_source IRQ_TYPE_*>`. -/
structure Spec where
  slot : Nat
  source : Nat
  type : Nat
  deriving DecidableEq, Repr

def Spec.cells (s : Spec) : List Nat := [s.slot, s.source, s.type]

def Spec.edge (s : Spec) : Bool := s.type == irqTypeEdgeRising

/-- What reading the specifier leaves. -/
def Spec.note (c : Ctrl) (s : Spec) : Ctrl :=
  { c with
    intmtxSource := update c.intmtxSource s.slot (s.source % 2 ^ 8)
    trigEdge := update c.trigEdge s.slot s.edge }

/-- The driver after the static initialisers, with the matrix mapped. -/
structure Boot (c : Ctrl) : Prop where
  hasIntmtx : c.hasIntmtx = true
  source : ∀ h, c.intmtxSource h = 0
  edge : ∀ h, c.trigEdge h = false
  flow : ∀ h, c.flow h = none

/-- What a specifier comes to. -/
theorem createMapping_cells (c : Ctrl) (s : Spec) :
    createMapping c s.cells =
      if s.slot ≥ clicNumIrqs then c
      else if (c.flow s.slot).isSome then s.note c else domainMap (s.note c) s.slot := by
  have h : domainXlate c s.cells = if s.slot ≥ clicNumIrqs then none else some (s.note c, s.slot, s.type) := rfl
  unfold createMapping
  rw [h]
  by_cases hs : s.slot ≥ clicNumIrqs
  · rw [if_pos hs, if_pos hs]
  · rw [if_neg hs, if_neg hs]
    rfl

def createAll (c : Ctrl) (specs : List Spec) : Ctrl := specs.foldl (fun c s => createMapping c s.cells) c

theorem createAll_append (c : Ctrl) (specs : List Spec) (s : Spec) :
    createAll c (specs ++ [s]) = createMapping (createAll c specs) s.cells := by
  unfold createAll
  rw [List.foldl_append]
  rfl

/-- The matrix puts the source on a slot, and the processor takes it with the slot in the low bits of the cause:
    it comes to the slot of the specifier. -/
def Routed (c : Ctrl) (s : Spec) : Prop :=
  ∀ cause : BitVec 32, cause.toNat % 2 ^ 8 = c.intmtx s.source % 2 ^ 8 → intcIrq c cause = .clic s.slot

theorem clicId_eq (cause : BitVec 32) :
    (cause &&& ~~~0x80000000#32 &&& 0xFF#32).toNat = cause.toNat % 2 ^ 8 := by
  have h : ~~~0x80000000#32 &&& 0xFF#32 = 0xFF#32 := by decide
  rw [BitVec.and_assoc, h, BitVec.toNat_and]
  exact Nat.and_two_pow_sub_one_eq_mod cause.toNat 8

theorem routed_iff_slot {c : Ctrl} {s : Spec} :
    Routed c s ↔ s.slot = c.intmtx s.source % 2 ^ 8 ∧ 16 ≤ s.slot ∧ (c.flow s.slot).isSome = true := by
  unfold Routed intcIrq
  simp only [clicId_eq]
  constructor
  · intro h
    have hlt : c.intmtx s.source % 2 ^ 8 < 2 ^ 32 := by omega
    have h0 := h (BitVec.ofNat 32 (c.intmtx s.source % 2 ^ 8)) (by
      rw [BitVec.toNat_ofNat, Nat.mod_eq_of_lt hlt, Nat.mod_mod])
    rw [BitVec.toNat_ofNat, Nat.mod_eq_of_lt hlt, Nat.mod_mod] at h0
    split at h0 <;> rename_i hge
    · split at h0 <;> rename_i hsome
      · have he := Target.clic.inj h0
        rw [he] at hge hsome
        exact ⟨he.symm, hge, hsome⟩
      · cases h0
    · cases h0
  · rintro ⟨h1, h2, h3⟩ cause hc
    rw [hc, ← h1, if_pos h2, if_pos h3]

/-! ## 3. Sources and slots -/

/-- The specifiers name slots of the domain and sources of the matrix, one source for a slot and one slot for a
    source. -/
structure Wiring (specs : List Spec) : Prop where
  slot : ∀ s ∈ specs, 16 ≤ s.slot ∧ s.slot < clicNumIrqs
  source : ∀ s ∈ specs, 0 < s.source ∧ s.source < 2 ^ 8
  one : ∀ s ∈ specs, ∀ t ∈ specs, s.slot = t.slot ↔ s.source = t.source

/-- What has been mapped, with a matrix that held nothing before. -/
structure Mapped (c : Ctrl) : Prop where
  hasIntmtx : c.hasIntmtx = true
  slot : ∀ h, (c.flow h).isSome = true → h < clicNumIrqs
  entry : ∀ r, c.intmtx r ≠ 0 → 0 < r ∧ r < 2 ^ 8 ∧ (c.flow (c.intmtx r)).isSome = true
  once : ∀ r r', c.intmtx r ≠ 0 → c.intmtx r = c.intmtx r' → r = r'

/-- The matrix once the slot of a specifier has been mapped. -/
theorem intmtx_domainMap {c : Ctrl} (h : c.hasIntmtx = true) (s : Spec) (r : Nat) :
    (domainMap (s.note c) s.slot).intmtx r =
      if r = s.source % 2 ^ 8 ∧ r ≠ 0 then s.slot else c.intmtx r := by
  have hsrc : (s.note c).intmtxSource s.slot = s.source % 2 ^ 8 := update_self ..
  change (if c.hasIntmtx ∧ (s.note c).intmtxSource s.slot ≠ 0 then
    update c.intmtx ((s.note c).intmtxSource s.slot) s.slot else c.intmtx) r = _
  rw [hsrc]
  by_cases h0 : s.source % 2 ^ 8 = 0
  · rw [if_neg (fun hc => hc.2 h0), if_neg (fun hc => hc.2 (hc.1.trans h0))]
  · rw [if_pos ⟨h, h0⟩, update_apply]
    by_cases hr : r = s.source % 2 ^ 8
    · rw [if_pos hr, if_pos ⟨hr, hr ▸ h0⟩]
    · rw [if_neg hr, if_neg (fun hc => hr hc.1)]

theorem isSome_flow_domainMap (c : Ctrl) (s : Spec) (x : Nat) :
    ((domainMap (s.note c) s.slot).flow x).isSome = true ↔ x = s.slot ∨ (c.flow x).isSome = true := by
  change (update c.flow s.slot _ x).isSome = true ↔ _
  by_cases hx : x = s.slot
  · simp [hx]
  · simp [hx]

theorem mapped_create {c : Ctrl} (h : Mapped c) (s : Spec) : Mapped (createMapping c s.cells) := by
  rw [createMapping_cells]
  split
  · exact h
  rename_i hlt
  split
  · exact ⟨h.hasIntmtx, h.slot, h.entry, h.once⟩
  rename_i hnone
  -- the slot is new, so no entry of the matrix has it yet
  have hnew : ∀ r, c.intmtx r ≠ 0 → c.intmtx r ≠ s.slot := fun r h0 he => hnone (he ▸ (h.entry r h0).2.2)
  have hflow := isSome_flow_domainMap c s
  have hmtx := intmtx_domainMap h.hasIntmtx s
  constructor
  · exact h.hasIntmtx
  · intro x hx
    obtain rfl | hx := (hflow x).mp hx
    · omega
    · exact h.slot x hx
  · intro r hr
    rw [hmtx] at hr ⊢
    split at hr
    · rename_i hc
      rw [if_pos hc]
      exact ⟨by omega, by omega, (hflow _).mpr (.inl rfl)⟩
    · rename_i hc
      rw [if_neg hc]
      obtain ⟨h1, h2, h3⟩ := h.entry r hr
      exact ⟨h1, h2, (hflow _).mpr (.inr h3)⟩
  · intro r r' hr he
    rw [hmtx] at hr
    rw [hmtx, hmtx] at he
    split at hr <;> rename_i hc
    · rw [if_pos hc] at he
      split at he <;> rename_i hc'
      · omega
      · exact absurd he.symm (hnew r' (he ▸ hr))
    · rw [if_neg hc] at he
      split at he
      · exact absurd he (hnew r hr)
      · exact h.once r r' hr he

theorem mapped_all {c : Ctrl} (h : Mapped c) (specs : List Spec) : Mapped (createAll c specs) := by
  induction specs using List.reverseRecOn with
  | nil => exact h
  | append_singleton specs s ih =>
    rw [createAll_append]
    exact mapped_create ih s

/-- What has been done with specifiers that fit: they are routed, and nothing else is mapped. -/
structure Wired (c : Ctrl) (specs : List Spec) : Prop where
  hasIntmtx : c.hasIntmtx = true
  entry : ∀ s ∈ specs, c.intmtx s.source = s.slot ∧ (c.flow s.slot).isSome = true
  only : ∀ h, (c.flow h).isSome = true → ∃ s ∈ specs, s.slot = h

theorem wired_create {c : Ctrl} {specs : List Spec} {s : Spec} (hw : Wiring (specs ++ [s])) (h : Wired c specs) :
    Wired (createMapping c s.cells) (specs ++ [s]) := by
  have hs : s ∈ specs ++ [s] := List.mem_append_right _ (List.mem_singleton_self s)
  have hsub : ∀ t ∈ specs, t ∈ specs ++ [s] := fun t ht => List.mem_append_left _ ht
  have hslot := hw.slot s hs
  have hsource := hw.source s hs
  rw [createMapping_cells, if_neg (by omega)]
  split <;> rename_i hmapped
  · -- a slot that is shared: its source has been routed
    obtain ⟨t, ht, he⟩ := h.only s.slot hmapped
    have hsrc := (hw.one t (hsub t ht) s hs).mp he
    refine ⟨h.hasIntmtx, ?_, fun x hx => ?_⟩
    · intro u hu
      obtain hu | hu := List.mem_append.mp hu
      · exact h.entry u hu
      · obtain rfl := List.mem_singleton.mp hu
        rw [← he, ← hsrc]
        exact h.entry t ht
    · obtain ⟨u, hu, hx⟩ := h.only x hx
      exact ⟨u, hsub u hu, hx⟩
  · have hflow := isSome_flow_domainMap c s
    have hmtx := intmtx_domainMap h.hasIntmtx s
    rw [Nat.mod_eq_of_lt hsource.2] at hmtx
    refine ⟨h.hasIntmtx, ?_, fun x hx => ?_⟩
    · intro u hu
      rw [hmtx, hflow]
      obtain hu | hu := List.mem_append.mp hu
      · obtain ⟨h1, h2⟩ := h.entry u hu
        have hne : u.slot ≠ s.slot := fun he => hmapped (he ▸ h2)
        have hne' : u.source ≠ s.source := fun he => hne ((hw.one u (hsub u hu) s hs).mpr he)
        rw [if_neg (fun hc => hne' hc.1)]
        exact ⟨h1, .inr h2⟩
      · obtain rfl := List.mem_singleton.mp hu
        rw [if_pos ⟨rfl, by omega⟩]
        exact ⟨rfl, .inl rfl⟩
    · obtain rfl | hx := (hflow x).mp hx
      · exact ⟨s, hs, rfl⟩
      · obtain ⟨u, hu, hx⟩ := h.only x hx
        exact ⟨u, hsub u hu, hx⟩

theorem Wiring.init {specs : List Spec} {s : Spec} (h : Wiring (specs ++ [s])) : Wiring specs where
  slot t ht := h.slot t (List.mem_append_left _ ht)
  source t ht := h.source t (List.mem_append_left _ ht)
  one t ht u hu := h.one t (List.mem_append_left _ ht) u (List.mem_append_left _ hu)

theorem wired_all {c : Ctrl} (hb : Boot c) {specs : List Spec} (hw : Wiring specs) :
    Wired (createAll c specs) specs := by
  induction specs using List.reverseRecOn with
  | nil =>
    refine ⟨hb.hasIntmtx, fun s hs => absurd hs List.not_mem_nil, fun h hh => ?_⟩
    change (c.flow h).isSome = true at hh
    rw [hb.flow] at hh
    cases hh
  | append_singleton specs s ih =>
    rw [createAll_append]
    exact wired_create hw (ih hw.init)

/-- A driver whose matrix holds nothing. -/
def blank : Ctrl where
  intip _ := 0
  intie _ := 0
  intattr _ := 0
  intctl _ := 0
  intmtx _ := 0
  hasIntmtx := true
  intmtxSource _ := 0
  trigEdge _ := false
  flow _ := none

theorem boot_blank : Boot blank := ⟨rfl, fun _ => rfl, fun _ => rfl, fun _ => rfl⟩

theorem mapped_blank : Mapped blank :=
  ⟨rfl, (fun _ h => by cases h), fun _ h => absurd rfl h, fun _ _ h => absurd rfl h⟩

/-- **Every source comes to its own slot**, whatever the matrix held before, if and only if the wiring has slots and
    sources in range, and pairs them. -/
theorem routed_iff (specs : List Spec) :
    (∀ c, Boot c → ∀ s ∈ specs, Routed (createAll c specs) s) ↔ Wiring specs := by
  constructor
  · intro h
    have hm := mapped_all mapped_blank specs
    have hr : ∀ s ∈ specs, (createAll blank specs).intmtx s.source = s.slot ∧ s.slot ≠ 0 ∧ 16 ≤ s.slot := by
      intro s hs
      obtain ⟨h1, h2, h3⟩ := routed_iff_slot.mp (h blank boot_blank s hs)
      have hne : (createAll blank specs).intmtx s.source ≠ 0 := by
        intro h0
        rw [h0] at h1
        omega
      have hlt := hm.slot _ (hm.entry _ hne).2.2
      have hsame : (createAll blank specs).intmtx s.source = s.slot := by
        rw [h1, Nat.mod_eq_of_lt (by unfold clicNumIrqs at hlt; omega)]
      exact ⟨hsame, by omega, h2⟩
    have hentry : ∀ s ∈ specs, (createAll blank specs).intmtx s.source ≠ 0 := by
      intro s hs
      obtain ⟨h1, h2, _⟩ := hr s hs
      rwa [h1]
    constructor
    · intro s hs
      obtain ⟨h1, _, h3⟩ := hr s hs
      exact ⟨h3, hm.slot _ (h1 ▸ (hm.entry _ (hentry s hs)).2.2)⟩
    · intro s hs
      obtain ⟨h1, h2, _⟩ := hm.entry _ (hentry s hs)
      exact ⟨h1, h2⟩
    · intro s hs t ht
      constructor
      · intro he
        exact hm.once _ _ (hentry s hs) ((hr s hs).1.trans (he.trans (hr t ht).1.symm))
      · intro he
        rw [← (hr s hs).1, ← (hr t ht).1, he]
  · intro hw c hb s hs
    obtain ⟨h1, h2⟩ := (wired_all hb hw).entry s hs
    have hslot := hw.slot s hs
    unfold clicNumIrqs at hslot
    exact routed_iff_slot.mpr ⟨by rw [h1, Nat.mod_eq_of_lt (by omega)], hslot.1, h2⟩

/-- The wiring of the device tree: the system timer, the console, the first GPIO bank, the card and Ethernet. -/
def board : List Spec := [⟨17, 53, 4⟩, ⟨18, 31, 4⟩, ⟨21, 74, 4⟩, ⟨22, 23, 4⟩, ⟨23, 92, 4⟩]

example : Wiring board := ⟨by decide, by decide, by decide⟩

/-! ## 4. Acks -/

/-- What the interrupt core asks of the driver. -/
inductive Call where
  | create (s : Spec) | setType (hwirq type : Nat) | mask (hwirq : Nat) | unmask (hwirq : Nat) | ack (hwirq : Nat)
  deriving DecidableEq, Repr

def call (c : Ctrl) : Call → Ctrl
  | .create s => createMapping c s.cells
  | .setType h type => irqSetType c h type
  | .mask h => irqMask c h
  | .unmask h => irqUnmask c h
  | .ack h => irqAck c h

def run (c : Ctrl) (calls : List Call) : Ctrl := calls.foldl call c

/-- An ack clears the latch of an edge slot, and does not touch that of a level slot. -/
def AcksRight (c : Ctrl) : Prop :=
  ∀ h, (c.flow h).isSome = true → ∀ pending,
    (irqAck { c with intip := update c.intip h pending } h).intip h =
      if c.intattr h = attrEdge then 0 else pending

/-- The driver's note of a mapped slot is what the slot's register says. -/
def Agrees (c : Ctrl) : Prop := ∀ h, (c.flow h).isSome = true → (c.trigEdge h = true ↔ c.intattr h = attrEdge)

/-- A specifier that names a mapped slot gives the trigger it has. -/
def Keeps (c : Ctrl) : Call → Prop
  | .create s =>
    s.slot < clicNumIrqs → (c.flow s.slot).isSome = true → (s.edge = true ↔ c.intattr s.slot = attrEdge)
  | _ => True

theorem irqAck_latch (c : Ctrl) (h pending : Nat) :
    (irqAck { c with intip := update c.intip h pending } h).intip h = if c.trigEdge h = true then 0 else pending := by
  unfold irqAck
  dsimp only
  split
  · exact update_self ..
  · exact update_self ..

theorem acksRight_iff {c : Ctrl} : AcksRight c ↔ Agrees c := by
  refine forall_congr' fun h => imp_congr_right fun _ => ?_
  simp only [irqAck_latch]
  constructor
  · intro hall
    have h1 := hall 1
    by_cases he : c.trigEdge h = true <;> by_cases ha : c.intattr h = attrEdge
    · exact iff_of_true he ha
    · rw [if_pos he, if_neg ha] at h1
      cases h1
    · rw [if_neg he, if_pos ha] at h1
      cases h1
    · exact iff_of_false he ha
  · intro he pending
    exact if_congr he rfl rfl

theorem attrLevel_ne : attrLevel ≠ attrEdge := by decide

/-- A note and a register that are written together agree. -/
theorem update_agrees {t : Nat → Bool} {r : Nat → Nat} {x y : Nat} (e : Bool)
    (h : y ≠ x → (t y = true ↔ r y = attrEdge)) :
    update t x e y = true ↔ update r x (if e then attrEdge else attrLevel) y = attrEdge := by
  by_cases hyx : y = x
  · rw [hyx, update_self, update_self]
    cases e with
    | false => exact iff_of_false Bool.false_ne_true attrLevel_ne
    | true => exact iff_of_true rfl rfl
  · rw [update_of_ne hyx, update_of_ne hyx]
    exact h hyx

/-- **One call**: the notes agree after it if they did before and it keeps the trigger, and not if it does not. -/
theorem agrees_call_iff {c : Ctrl} (h : Agrees c) (k : Call) : Agrees (call c k) ↔ Keeps c k := by
  cases k with
  | mask x | unmask x => exact iff_of_true h trivial
  | ack x =>
    refine iff_of_true ?_ trivial
    change Agrees (irqAck c x)
    unfold irqAck
    split
    · exact h
    · exact h
  | setType x type =>
    refine iff_of_true (fun y hy => ?_) trivial
    exact update_agrees _ fun _ => h y hy
  | create s =>
    change Agrees (createMapping c s.cells) ↔ (_ → _ → _)
    rw [createMapping_cells]
    split
    · exact iff_of_true h (fun hlt => by omega)
    rename_i hlt
    split <;> rename_i hm
    · -- the slot is mapped: the note changes, the register does not
      constructor
      · intro ha _ _
        have hs := ha s.slot hm
        change update c.trigEdge s.slot s.edge s.slot = true ↔ _ at hs
        rwa [update_self] at hs
      · intro hk y hy
        change update c.trigEdge s.slot s.edge y = true ↔ _
        by_cases hys : y = s.slot
        · subst hys
          rw [update_self]
          exact hk (by omega) hm
        · rw [update_of_ne hys]
          exact h y hy
    · refine iff_of_true (fun y hy => ?_) (fun _ hm' => absurd hm' hm)
      have hedge : (s.note c).trigEdge s.slot = s.edge := update_self ..
      change update c.trigEdge s.slot s.edge y = true ↔
        update c.intattr s.slot (if (s.note c).trigEdge s.slot then attrEdge else attrLevel) y = attrEdge
      rw [hedge]
      refine update_agrees _ fun hys => h y ?_
      exact ((isSome_flow_domainMap c s y).mp hy).resolve_left hys

/-- **Acks are right in every state of a run** if and only if no specifier on its way gives a mapped slot a trigger
    that it does not have: reading a specifier overwrites the note, and the register of a mapped slot stays. -/
theorem acks_right_iff {c : Ctrl} (hb : Boot c) (calls : List Call) :
    (∀ pre post, calls = pre ++ post → AcksRight (run c pre)) ↔
      ∀ pre k post, calls = pre ++ k :: post → Keeps (run c pre) k := by
  have hstep : ∀ pre k, run c (pre ++ [k]) = call (run c pre) k := by
    intro pre k
    unfold run
    rw [List.foldl_append]
    rfl
  constructor
  · intro h pre k post he
    have h1 := acksRight_iff.mp (h pre (k :: post) he)
    have h2 := acksRight_iff.mp (h (pre ++ [k]) post (by rw [he, List.append_assoc]; rfl))
    rw [hstep] at h2
    exact (agrees_call_iff h1 k).mp h2
  · intro h pre
    induction pre using List.reverseRecOn with
    | nil =>
      intro _ _ x hx
      change (c.flow x).isSome = true at hx
      rw [hb.flow] at hx
      cases hx
    | append_singleton pre k ih =>
      intro post he
      have he' : calls = pre ++ k :: post := by rw [he, List.append_assoc]; rfl
      rw [hstep]
      exact acksRight_iff.mpr ((agrees_call_iff (acksRight_iff.mp (ih _ he')) k).mpr (h pre k post he'))

/-- Two devices on one slot that do not agree on its trigger. -/
theorem acks_right_shared : ¬ ∀ pre post,
    [Call.create ⟨18, 31, 4⟩, .create ⟨18, 31, 1⟩] = pre ++ post → AcksRight (run blank pre) := by
  rw [acks_right_iff boot_blank]
  intro h
  have hk := h [.create ⟨18, 31, 4⟩] (.create ⟨18, 31, 1⟩) [] rfl (by decide) (by decide)
  revert hk
  decide

end P4Linux.Kernel.Clic
