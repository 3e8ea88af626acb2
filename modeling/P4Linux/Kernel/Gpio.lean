import Mathlib.Data.BitVec
import P4Linux.Lib.Rmw

/-!
# Two banks of pins on one block of registers

`gpio-esp32p4.c` of patch 0002. Each bank is a chip of its own, with its own lock, and both work on the same two
blocks of registers: GPIO_PIN<n>_REG for the interrupts, under the lock, and the IO_MUX for the pads, under none.
A call reads a register, changes fields of it and writes it back; others run in between.

* `irq_fields_kept` -- trigger and enable bit of a pin are what **the last completed call on this pin** set, and the
  rest of the register stays, in every run of any number of callers on both banks;
* `pads_race_iff` -- two calls on pads end as one order of them does, however their accesses fall, **unless one is a
  request and the other sets the bias of the same pad**, and both have something to change.
-/

namespace P4Linux.Kernel.Gpio

open Function (update update_self update_of_ne)

/-! ## 1. Registers -/

inductive Bank where
  | b0 | b1
  deriving DecidableEq, Repr

def Bank.pinOffset : Bank → Nat
  | .b0 => 0
  | .b1 => 32

/-- ESP32P4_GPIO_NGPIO. -/
def ngpio : Nat := 32

def pinIntTypeMask : BitVec 32 := 0x7#32 <<< 7
def pinIntTypePos : BitVec 32 := 0x1#32 <<< 7
def pinIntTypeNeg : BitVec 32 := 0x2#32 <<< 7
def pinIntTypeAny : BitVec 32 := 0x3#32 <<< 7
def pinIntTypeLo : BitVec 32 := 0x4#32 <<< 7
def pinIntTypeHi : BitVec 32 := 0x5#32 <<< 7
def pinIntEnaCpu : BitVec 32 := 1#32 <<< 13

def ioMuxFunWpd : BitVec 32 := 1#32 <<< 7
def ioMuxFunWpu : BitVec 32 := 1#32 <<< 8
def ioMuxFunIe : BitVec 32 := 1#32 <<< 9
def ioMuxMcuSelMask : BitVec 32 := 0x7#32 <<< 12
def ioMuxMcuSelGpio : BitVec 32 := 0x1#32 <<< 12

/-! ## 2. Interrupts -/

/-- `esp32p4_gpio_irq_mask`, `.._unmask` and `.._set_type`. -/
inductive IrqOp where
  | mask | unmask | setType (type : Nat)
  deriving DecidableEq, Repr

/-- The switch of `esp32p4_gpio_irq_set_type`; `none` is -EINVAL. -/
def typeMode (type : Nat) : Option (BitVec 32) :=
  match type % 16 with
  | 1 => some pinIntTypePos
  | 2 => some pinIntTypeNeg
  | 3 => some pinIntTypeAny
  | 4 => some pinIntTypeHi
  | 8 => some pinIntTypeLo
  | _ => none

/-- What a call passes on: `set` and `clr`. -/
def IrqOp.args : IrqOp → Option (BitVec 32 × BitVec 32)
  | .mask => some (0, pinIntEnaCpu)
  | .unmask => some (pinIntEnaCpu, 0)
  | .setType type => (typeMode type).map fun mode => (mode, pinIntTypeMask)

/-- A call of `esp32p4_gpio_irq_pin_rmw`: what it is from, and `set` and `clr`. The lines of a bank are `ngpio`. -/
structure PinRmw where
  bank : Bank
  hwirq : Nat
  op : IrqOp
  set : BitVec 32
  clr : BitVec 32
  line : hwirq < ngpio
  args : op.args = some (set, clr)

def PinRmw.pin (k : PinRmw) : Nat := k.bank.pinOffset + k.hwirq

/-- The call as an update of a register: `val = (val & ~clr) | set`. -/
def PinRmw.update (k : PinRmw) : Rmw.Update Nat (BitVec 32) := ⟨k.pin, Rmw.setBits k.clr k.set, false⟩

/-- Where a caller is: outside, with the lock, with the value read, and with the new one written. -/
inductive Stage where
  | idle | locked (k : PinRmw) | loaded (k : PinRmw) (val : BitVec 32) | stored (k : PinRmw)

/-- The registers GPIO_PIN<n>_REG, who holds the lock of each bank, and the callers. -/
structure Irqs (T : Type) where
  pin : Nat → BitVec 32
  lock : Bank → Option T
  stage : T → Stage

section Irq

variable {T : Type} [DecidableEq T]

def Irqs.at (s : Irqs T) (t : T) (stage : Stage) : Irqs T := { s with stage := update s.stage t stage }

/-- A step of `esp32p4_gpio_irq_pin_rmw`, with the call that has written. -/
inductive Step : Irqs T → List PinRmw → Irqs T → Prop
  | lock {s : Irqs T} {t : T} {k : PinRmw} (h : s.stage t = .idle) (hl : s.lock k.bank = none) :
      Step s [] { s.at t (.locked k) with lock := update s.lock k.bank (some t) }
  | load {s : Irqs T} {t : T} {k : PinRmw} (h : s.stage t = .locked k) : Step s [] (s.at t (.loaded k (s.pin k.pin)))
  | store {s : Irqs T} {t : T} {k : PinRmw} {val : BitVec 32} (h : s.stage t = .loaded k val) :
      Step s [k] { s.at t (.stored k) with pin := update s.pin k.pin (Rmw.setBits k.clr k.set val) }
  | unlock {s : Irqs T} {t : T} {k : PinRmw} (h : s.stage t = .stored k) :
      Step s [] { s.at t .idle with lock := update s.lock k.bank none }

/-- A run, with the calls in the order in which they write. -/
inductive Run : Irqs T → List PinRmw → Irqs T → Prop
  | refl {s : Irqs T} : Run s [] s
  | step {s t u : Irqs T} {l l' : List PinRmw} (h : Step s l t) (rest : Run t l' u) : Run s (l ++ l') u

/-- The call a caller is in. -/
def Stage.call : Stage → Option PinRmw
  | .idle => none
  | .locked k | .loaded k _ | .stored k => some k

/-- **The invariant**: who is in a call holds the lock of its bank. -/
def Held (s : Irqs T) : Prop := ∀ t k, (s.stage t).call = some k → s.lock k.bank = some t

theorem Step.held {s s' : Irqs T} {l : List PinRmw} (hh : Held s) (h : Step s l s') : Held s' := by
  -- a caller that goes on in its call
  have hmove : ∀ {t : T} {stage : Stage} (pin : Nat → BitVec 32), stage.call = (s.stage t).call →
      Held { s.at t stage with pin := pin } := by
    intro t stage pin hc u k hk
    refine hh u k ?_
    change (update s.stage t stage u).call = some k at hk
    by_cases hu : u = t
    · subst hu
      rwa [update_self, hc] at hk
    · rwa [update_of_ne hu] at hk
  cases h with
  | @lock t k h hl =>
    intro u k' hk'
    change (update s.stage t (.locked k) u).call = some k' at hk'
    change update s.lock k.bank (some t) k'.bank = some u
    by_cases hu : u = t
    · subst hu
      rw [update_self] at hk'
      obtain rfl := Option.some.inj hk'
      exact update_self ..
    · rw [update_of_ne hu] at hk'
      have hlock := hh u k' hk'
      rw [update_of_ne, hlock]
      intro he
      rw [he, hl] at hlock
      cases hlock
  | load h => exact hmove s.pin (by rw [h]; rfl)
  | store h => exact hmove _ (by rw [h]; rfl)
  | @unlock t k h =>
    intro u k' hk'
    change (update s.stage t .idle u).call = some k' at hk'
    change update s.lock k.bank none k'.bank = some u
    by_cases hu : u = t
    · subst hu
      rw [update_self] at hk'
      cases hk'
    · rw [update_of_ne hu] at hk'
      have hlock := hh u k' hk'
      rw [update_of_ne, hlock]
      intro he
      rw [he, hh t k (by rw [h]; rfl)] at hlock
      exact hu (Option.some.inj hlock).symm

/-! ## 3. One call after the other -/

theorem Bank.pin_inj {b b' : Bank} {h h' : Nat} (hh : h < ngpio) (hh' : h' < ngpio)
    (he : b.pinOffset + h = b'.pinOffset + h') : b = b' := by
  unfold ngpio at hh hh'
  cases b <;> cases b' <;> simp only [Bank.pinOffset] at he <;> first | rfl | omega

def Stage.opened : Stage → Option (Rmw.Update Nat (BitVec 32) × BitVec 32)
  | .loaded k val => some (k.update, val)
  | _ => none

/-- The registers, and what the callers have read of them. -/
def Irqs.st (s : Irqs T) : Rmw.St Nat T (BitVec 32) := ⟨s.pin, Stage.opened ∘ s.stage⟩

omit [DecidableEq T] in
theorem Irqs.opened_eq {s : Irqs T} {t : T} {u : Rmw.Update Nat (BitVec 32)} {v : BitVec 32}
    (h : s.st.opened t = some (u, v)) : ∃ k, s.stage t = .loaded k v ∧ u = k.update := by
  change (s.stage t).opened = _ at h
  cases hs : s.stage t with
  | loaded k val =>
    rw [hs] at h
    cases h
    exact ⟨k, rfl, rfl⟩
  | idle | locked | stored =>
    rw [hs] at h
    cases h

omit [DecidableEq T] in
/-- The lock of a bank keeps others off its pins, and two banks have none in common. -/
theorem Held.excl {s : Irqs T} (h : Held s) : Rmw.Excl s.st := by
  intro t t' u v u' v' ht ht' he
  obtain ⟨k, hk, rfl⟩ := Irqs.opened_eq ht
  obtain ⟨k', hk', rfl⟩ := Irqs.opened_eq ht'
  have hl := h t k (by rw [hk]; rfl)
  rw [Bank.pin_inj k.line k'.line he, h t' k' (by rw [hk']; rfl)] at hl
  exact (Option.some.inj hl).symm

/-- A step of the driver is one of the registers, or none. -/
theorem Step.st {s s' : Irqs T} {l : List PinRmw} (h : Step s l s') :
    l = [] ∧ s'.st = s.st ∨ Rmw.Step s.st (l.map PinRmw.update) s'.st := by
  have hst : ∀ (t : T) (stage : Stage) (pin : Nat → BitVec 32) (lock : Bank → Option T),
      Irqs.st ⟨pin, lock, update s.stage t stage⟩ = ⟨pin, update s.st.opened t stage.opened⟩ :=
    fun t stage pin lock => congrArg _ (Function.comp_update ..)
  have hnone : ∀ {t : T} {stage : Stage}, stage.opened = none → (s.stage t).opened = none →
      update s.st.opened t stage.opened = s.st.opened := by
    intro t stage h h'
    rw [h, ← h']
    exact Function.update_eq_self t s.st.opened
  cases h with
  | @lock t k h hl =>
    refine .inl ⟨rfl, (hst ..).trans ?_⟩
    rw [hnone rfl (by rw [h]; rfl)]
    rfl
  | @load t k h =>
    refine .inr ?_
    rw [Irqs.at, hst]
    exact .load (s := s.st) (t := t) (u := k.update) (by change (s.stage t).opened = _; rw [h]; rfl)
  | @store t k val h =>
    refine .inr ?_
    rw [Irqs.at, hst]
    have ho : s.st.opened t = some (k.update, val) := by
      change (s.stage t).opened = _
      rw [h]
      rfl
    have hput : k.update.put val s.pin = update s.pin k.pin (Rmw.setBits k.clr k.set val) := if_pos nofun
    have := Rmw.Step.store (s := s.st) ho
    rw [Rmw.St.store] at this
    exact hput ▸ this
  | @unlock t k h =>
    refine .inl ⟨rfl, (hst ..).trans ?_⟩
    rw [hnone rfl (by rw [h]; rfl)]
    rfl

theorem Run.st {s s' : Irqs T} {l : List PinRmw} (hh : Held s) (h : Run s l s') :
    Rmw.Run s.st (l.map PinRmw.update) s'.st := by
  induction h with
  | refl => exact .refl
  | step hs _ ih =>
    have hrest := ih (hs.held hh)
    rw [List.map_append]
    obtain ⟨rfl, he⟩ | h := hs.st
    · rwa [he] at hrest
    · exact .step hh.excl h hrest

/-! ## 4. The fields of a pin -/

/-- The bits that a call is about. -/
def IrqOp.field : IrqOp → BitVec 32
  | .mask | .unmask => pinIntEnaCpu
  | .setType _ => pinIntTypeMask

/-- What is in no field. -/
def pinRest : BitVec 32 := ~~~(pinIntTypeMask ||| pinIntEnaCpu)

/-- A field of pin `n` as the last call that is about it left it. -/
def fieldAfter (field : BitVec 32) (n : Nat) (l : List PinRmw) (val : BitVec 32) : BitVec 32 :=
  l.foldl (fun val k => if k.pin = n ∧ k.op.field = field then k.set else val) val

theorem IrqOp.bits {op : IrqOp} {set clr : BitVec 32} (h : op.args = some (set, clr)) : clr ||| set = op.field := by
  cases op with
  | mask => cases h; decide
  | unmask => cases h; decide
  | setType type =>
    change clr ||| set = pinIntTypeMask
    obtain ⟨mode, hm, he⟩ := Option.map_eq_some_iff.mp h
    obtain ⟨rfl, rfl⟩ := Prod.mk.inj he
    unfold typeMode at hm
    split at hm <;> cases hm <;> decide

theorem IrqOp.field_cases (op : IrqOp) : op.field = pinIntEnaCpu ∨ op.field = pinIntTypeMask := by
  cases op
  · exact .inl rfl
  · exact .inl rfl
  · exact .inr rfl

theorem IrqOp.field_apart {op op' : IrqOp} (h : op.field ≠ op'.field) : op.field &&& op'.field = 0#32 := by
  obtain h1 | h1 := op.field_cases <;> obtain h2 | h2 := op'.field_cases <;> rw [h1, h2] at h ⊢
  · exact absurd rfl h
  · decide
  · decide
  · exact absurd rfl h

theorem IrqOp.field_rest (op : IrqOp) : op.field &&& pinRest = 0#32 := by
  obtain h | h := op.field_cases <;> rw [h] <;> decide

theorem fieldAfter_serial (op : IrqOp) (n : Nat) (l : List PinRmw) (v : BitVec 32) :
    Rmw.serial (l.map PinRmw.update) n v &&& op.field = fieldAfter op.field n l (v &&& op.field) := by
  induction l generalizing v with
  | nil => rfl
  | cons k l ih =>
    refine (ih (if k.pin = n then Rmw.setBits k.clr k.set v else v)).trans (congrArg (fieldAfter op.field n l) ?_)
    dsimp only
    by_cases hn : k.pin = n
    · rw [if_pos hn]
      by_cases hf : k.op.field = op.field
      · rw [if_pos ⟨hn, hf⟩]
        exact Rmw.setBits_field ((IrqOp.bits k.args).trans hf)
      · rw [if_neg (fun h => hf h.2)]
        exact Rmw.setBits_frame (by rw [IrqOp.bits k.args, IrqOp.field_apart hf])
    · rw [if_neg hn, if_neg (fun h => hn h.1)]

theorem rest_serial (n : Nat) (l : List PinRmw) (v : BitVec 32) :
    Rmw.serial (l.map PinRmw.update) n v &&& pinRest = v &&& pinRest := by
  induction l generalizing v with
  | nil => rfl
  | cons k l ih =>
    refine (ih (if k.pin = n then Rmw.setBits k.clr k.set v else v)).trans ?_
    split
    · exact Rmw.setBits_frame (by rw [IrqOp.bits k.args, IrqOp.field_rest])
    · rfl

/-- **The fields of a pin** after any run from a state in which nobody is in a call: the trigger is that of the last
    call that sets one, the enable bit that of the last mask or unmask, each on this pin; nothing else changes. -/
theorem irq_fields_kept {s s' : Irqs T} {l : List PinRmw} (h0 : ∀ t, s.stage t = .idle) (h : Run s l s') (n : Nat) :
    s'.pin n &&& pinIntTypeMask = fieldAfter pinIntTypeMask n l (s.pin n &&& pinIntTypeMask) ∧
      s'.pin n &&& pinIntEnaCpu = fieldAfter pinIntEnaCpu n l (s.pin n &&& pinIntEnaCpu) ∧
      s'.pin n &&& pinRest = s.pin n &&& pinRest := by
  have hheld : Held s := by
    intro t k hk
    rw [h0] at hk
    cases hk
  have hfresh : Rmw.Fresh s.st := by
    intro t u v ht
    obtain ⟨k, hk, -⟩ := Irqs.opened_eq ht
    rw [h0] at hk
    cases hk
  have hreg : s'.pin n = Rmw.serial (l.map PinRmw.update) n (s.pin n) := (h.st hheld).serial hfresh n
  rw [hreg]
  exact ⟨fieldAfter_serial (.setType 0) n l _, fieldAfter_serial .mask n l _, rest_serial n l _⟩

end Irq

/-- Line 3 of each bank, one to be triggered by a rising edge, the other to be enabled. -/
def rising : PinRmw := ⟨.b0, 3, .setType 1, pinIntTypePos, pinIntTypeMask, by decide, rfl⟩
def enabled : PinRmw := ⟨.b1, 3, .unmask, pinIntEnaCpu, 0, by decide, rfl⟩

def quiet : Irqs Bool := ⟨fun _ => 0, fun _ => none, fun _ => .idle⟩

theorem irq_fields_both : ∃ s' : Irqs Bool,
    s'.pin 3 &&& pinIntTypeMask = pinIntTypePos ∧ s'.pin 35 &&& pinIntEnaCpu = pinIntEnaCpu := by
  have h := Run.step (.lock (s := quiet) (t := true) (k := rising) rfl rfl) <|
    .step (.lock (t := false) (k := enabled) rfl rfl) <| .step (.load (t := true) rfl) <|
    .step (.load (t := false) rfl) <| .step (.store (t := false) rfl) <| .step (.store (t := true) rfl) .refl
  exact ⟨_, (irq_fields_kept (fun _ => rfl) h 3).1, (irq_fields_kept (fun _ => rfl) h 35).2.1⟩

/-! ## 5. Pads -/

/-- PIN_CONFIG_BIAS_PULL_UP, .._PULL_DOWN and .._DISABLE, and what the driver does not know. -/
inductive Param where
  | biasPullUp | biasPullDown | biasDisable | other
  deriving DecidableEq, Repr

/-- `esp32p4_gpio_request` and `esp32p4_gpio_set_config`. -/
inductive PadOp where
  | request | setConfig (param : Param)
  deriving DecidableEq, Repr

/-- `val`, from `prev`; `none` is -ENOTSUPP. -/
def PadOp.val (prev : BitVec 32) : PadOp → Option (BitVec 32)
  | .request => some ((prev &&& ~~~ioMuxMcuSelMask) ||| ioMuxMcuSelGpio ||| ioMuxFunIe)
  | .setConfig .biasPullUp => some ((prev &&& ~~~ioMuxFunWpd) ||| ioMuxFunWpu)
  | .setConfig .biasPullDown => some ((prev &&& ~~~ioMuxFunWpu) ||| ioMuxFunWpd)
  | .setConfig .biasDisable => some (prev &&& ~~~(ioMuxFunWpu ||| ioMuxFunWpd))
  | .setConfig .other => none

structure PadCall where
  bank : Bank
  offset : Nat
  op : PadOp
  deriving DecidableEq, Repr

def PadCall.pad (a : PadCall) : Nat := a.bank.pinOffset + a.offset

/-- The call as an update of a register of the IO_MUX, written `if (val != prev)`; without the mapping of the block
    nothing is done. -/
def PadCall.update (iomux : Bool) (a : PadCall) : Rmw.Update Nat (BitVec 32) where
  reg := a.pad
  f prev := if iomux then (a.op.val prev).getD prev else prev
  lazy := true

def PadOp.isRequest (op : PadOp) : Bool := op == .request

/-- The call finds something to change. -/
def PadCall.Changes (iomux : Bool) (a : PadCall) (mux : Nat → BitVec 32) : Prop :=
  (a.update iomux).f (mux a.pad) ≠ mux a.pad

/-- The bits of a call. -/
def PadOp.clrSet : PadOp → Option (BitVec 32 × BitVec 32)
  | .request => some (ioMuxMcuSelMask, ioMuxMcuSelGpio ||| ioMuxFunIe)
  | .setConfig .biasPullUp => some (ioMuxFunWpd, ioMuxFunWpu)
  | .setConfig .biasPullDown => some (ioMuxFunWpu, ioMuxFunWpd)
  | .setConfig .biasDisable => some (ioMuxFunWpu ||| ioMuxFunWpd, 0)
  | .setConfig .other => none

theorem PadOp.val_eq (op : PadOp) (prev : BitVec 32) :
    op.val prev = op.clrSet.map fun b => Rmw.setBits b.1 b.2 prev := by
  rcases op with _ | _ | _ | _ | _
  · exact congrArg some (BitVec.or_assoc ..)
  · rfl
  · rfl
  · exact congrArg some (BitVec.or_zero ..).symm
  · rfl

/-- A call that changes a register sets bits of it. -/
theorem PadCall.sets {iomux : Bool} {a : PadCall} {v : BitVec 32} (h : (a.update iomux).f v ≠ v) :
    ∃ c m, a.op.clrSet = some (c, m) ∧ (a.update iomux).f = Rmw.setBits c m := by
  cases iomux with
  | false => exact absurd rfl h
  | true =>
    have hf : (a.update true).f = fun prev => (a.op.val prev).getD prev := rfl
    rw [hf] at h ⊢
    cases hb : a.op.clrSet with
    | none =>
      dsimp only at h
      rw [a.op.val_eq, hb] at h
      exact absurd rfl h
    | some b =>
      refine ⟨b.1, b.2, rfl, funext fun prev => ?_⟩
      rw [a.op.val_eq, hb]
      rfl

theorem clrSet_same {op op' : PadOp} {c m c' m' : BitVec 32} (h : op.clrSet = some (c, m))
    (h' : op'.clrSet = some (c', m')) (he : op.isRequest = op'.isRequest) : c ||| m = c' ||| m' := by
  rcases op with _ | _ | _ | _ | _ <;> rcases op' with _ | _ | _ | _ | _ <;> cases h <;> cases h' <;>
    first | decide | cases he

theorem clrSet_apart {op op' : PadOp} {c m c' m' : BitVec 32} (h : op.clrSet = some (c, m))
    (h' : op'.clrSet = some (c', m')) (he : op.isRequest ≠ op'.isRequest) : (c ||| m) &&& (c' ||| m') = 0#32 := by
  rcases op with _ | _ | _ | _ | _ <;> rcases op' with _ | _ | _ | _ | _ <;> cases h <;> cases h' <;>
    first | decide | exact absurd rfl he

/-- Where both have read the same value, one of the calls is lost if each has something to change that the other
    does not set. -/
theorem lateOk_iff (iomux : Bool) (a b : PadCall) (v : BitVec 32) :
    Rmw.LateOk (a.update iomux) (b.update iomux) v ↔
      ¬ (a.op.isRequest ≠ b.op.isRequest ∧ (a.update iomux).f v ≠ v ∧ (b.update iomux).f v ≠ v) := by
  unfold Rmw.LateOk Rmw.late
  have hw : (b.update iomux).Writes v ↔ (b.update iomux).f v ≠ v := ⟨fun h => h rfl, fun h _ => h⟩
  by_cases hb : (b.update iomux).f v = v
  · rw [if_neg (fun h => hw.mp h hb), hb]
    exact iff_of_true (.inr rfl) (fun h => h.2.2 rfl)
  rw [if_pos (hw.mpr hb)]
  by_cases ha : (a.update iomux).f v = v
  · rw [ha]
    exact iff_of_true (.inl rfl) (fun h => h.2.1 rfl)
  obtain ⟨c, m, hcm, hfa⟩ := PadCall.sets ha
  obtain ⟨c', m', hcm', hfb⟩ := PadCall.sets hb
  rw [hfa] at ha ⊢
  rw [hfb] at hb ⊢
  by_cases he : a.op.isRequest = b.op.isRequest
  · refine iff_of_true (.inl (Rmw.setBits_setBits ?_).symm) (fun h => h.1 he)
    exact clrSet_same hcm' hcm he.symm
  · refine iff_of_false ?_ (not_not.mpr ⟨he, ha, hb⟩)
    have hapart := clrSet_apart hcm' hcm (Ne.symm he)
    rw [Rmw.setBits_comm (clrSet_apart hcm hcm' he), or_self]
    intro h
    exact ha (Rmw.setBits_stays hapart h.symm)

/-- **Two calls on pads** end as one order of them does, however their accesses fall, if and only if they are not a
    request and a bias for one pad that both have something to change there. -/
theorem pads_race_iff (iomux : Bool) (a b : PadCall) (mux : Nat → BitVec 32) :
    (∀ evs, Rmw.Merges ((a.update iomux).steps true) ((b.update iomux).steps false) evs →
      Rmw.after mux evs = (b.update iomux).on ((a.update iomux).on mux) ∨
        Rmw.after mux evs = (a.update iomux).on ((b.update iomux).on mux)) ↔
      ¬ (a.pad = b.pad ∧ a.op.isRequest ≠ b.op.isRequest ∧ a.Changes iomux mux ∧ b.Changes iomux mux) := by
  rw [Rmw.race_iff]
  change (a.pad = b.pad → _ ∧ _) ↔ _
  unfold PadCall.Changes
  constructor
  · rintro h ⟨he, hk, ha, hb⟩
    rw [← he] at hb
    exact (lateOk_iff iomux a b _).mp (h he).1 ⟨hk, ha, hb⟩
  · intro h he
    refine ⟨(lateOk_iff ..).mpr ?_, (lateOk_iff ..).mpr ?_⟩
    · rintro ⟨hk, ha, hb⟩
      exact h ⟨he, hk, ha, he ▸ hb⟩
    · rintro ⟨hk, hb, ha⟩
      exact h ⟨he, hk.symm, ha, he ▸ hb⟩

end P4Linux.Kernel.Gpio
