import P4Linux.Lib.Riscv

/-!
# Assembly text, line by line

A routine as it stands in a `.S` file: a list of lines, a label being the number of the line it is in front of,
so that nothing depends on how the assembler encodes or compresses it. The hart is the one of `Lib/Riscv.lean`
with line numbers for addresses and control registers beside it.

* `run_add`, `reaches_trans` -- runs, one after the other;
* `reaches_loop` -- a **loop** whose body takes its invariant from `i` to `i + 1`;
* `filled_step`, `copied_step` -- what a loop over words has done to memory after one word more.
-/

namespace P4Linux.Asm

open Rv

/-- Control registers by number. -/
abbrev Csrs := BitVec 12 → Word

abbrev mstatus : BitVec 12 := 0x300#12
abbrev mie : BitVec 12 := 0x304#12
abbrev mtvec : BitVec 12 := 0x305#12
abbrev mepc : BitVec 12 := 0x341#12
abbrev mcause : BitVec 12 := 0x342#12
abbrev mtval : BitVec 12 := 0x343#12

abbrev Cpu := Hart Nat Csrs

/-! ## 1. Lines -/

inductive Line where
  /-- `la`, whatever instructions it becomes -/
  | la (rd : Reg) (a : Word)
  | li (rd : Reg) (v : Word)
  | mv (rd rs : Reg)
  | addi (rd rs : Reg) (v : Word)
  | lw (rd : Reg) (v : Word) (rs : Reg)
  | sw (rs2 : Reg) (v : Word) (rs1 : Reg)
  | branch (c : Cond) (rs1 rs2 : Reg) (label : Nat)
  | j (label : Nat)
  | csrr (rd : Reg) (csr : BitVec 12)
  | csrw (csr : BitVec 12) (rs : Reg)
  | csrci (csr : BitVec 12) (bits : Word)
  | fence
  | fenceI
  | wfi
  | call (f : Word)
  | jr (rs : Reg)
  deriving DecidableEq, Repr

def next (s : Cpu) : Cpu := s.jump (s.pc + 1)

def setCsr (s : Cpu) (csr : BitVec 12) (v : Word) : Cpu := { s with sys := Function.update s.sys csr v }

section Fields

variable (s : Cpu) (r : Reg) (csr : BitVec 12) (v : Word)

@[simp] theorem next_pc : (next s).pc = s.pc + 1 := rfl
@[simp] theorem next_get : (next s).get r = s.get r := rfl
@[simp] theorem next_mem : (next s).mem = s.mem := rfl
@[simp] theorem next_sys : (next s).sys = s.sys := rfl
@[simp] theorem setCsr_pc : (setCsr s csr v).pc = s.pc := rfl
@[simp] theorem setCsr_get : (setCsr s csr v).get r = s.get r := rfl
@[simp] theorem setCsr_mem : (setCsr s csr v).mem = s.mem := rfl
@[simp] theorem setCsr_sys : (setCsr s csr v).sys = Function.update s.sys csr v := rfl

end Fields

/-- One line; `none` where it leaves the routine. -/
def exec (l : Line) (s : Cpu) : Option Cpu :=
  match l with
  | .la rd a => some (next (s.set rd a))
  | .li rd v => some (next (s.set rd v))
  | .mv rd rs => some (next (s.set rd (s.get rs)))
  | .addi rd rs v => some (next (s.set rd (s.get rs + v)))
  | .lw rd v rs => some (next (s.set rd (wordAt s.mem (s.get rs + v))))
  | .sw rs2 v rs1 => some (next (s.store (cellsAt 4 (s.get rs1 + v) (s.get rs2))))
  | .branch c rs1 rs2 label => some (s.jump (if c.holds (s.get rs1) (s.get rs2) then label else s.pc + 1))
  | .j label => some (s.jump label)
  | .csrr rd csr => some (next (s.set rd (s.sys csr)))
  | .csrw csr rs => some (next (setCsr s csr (s.get rs)))
  | .csrci csr bits => some (next (setCsr s csr (s.sys csr &&& ~~~bits)))
  | .fence | .fenceI | .wfi => some (next s)
  | .call _ | .jr _ => none

/-- Where a line leaves to. -/
def leaves (l : Line) (s : Cpu) : Option Word :=
  match l with
  | .call f => some f
  | .jr rs => some (s.get rs)
  | _ => none

/-! ## 2. Runs -/

section Run

variable (p : List Line)

def step (s : Cpu) : Option Cpu := (p[s.pc]?).bind fun l => exec l s

def run : Nat → Cpu → Option Cpu
  | 0, s => some s
  | n + 1, s => (step p s).bind (run n)

def Reaches (s s' : Cpu) : Prop := ∃ n, run p n s = some s'

/-- The routine comes to a line that leaves it for `a`. -/
def Leaves (s s' : Cpu) (a : Word) : Prop := Reaches p s s' ∧ ∃ l, p[s'.pc]? = some l ∧ leaves l s' = some a

variable {p}

theorem run_add {m n : Nat} {s s' s'' : Cpu} (h : run p m s = some s') (h' : run p n s' = some s'') :
    run p (m + n) s = some s'' := by
  induction m generalizing s with
  | zero =>
    cases h
    rwa [Nat.zero_add]
  | succ m ih =>
    obtain ⟨t, ht, h⟩ := Option.bind_eq_some_iff.mp h
    rw [Nat.add_right_comm]
    exact Option.bind_eq_some_iff.mpr ⟨t, ht, ih h⟩

theorem reaches_refl (s : Cpu) : Reaches p s s := ⟨0, rfl⟩

theorem reaches_trans {s s' s'' : Cpu} (h : Reaches p s s') (h' : Reaches p s' s'') : Reaches p s s'' := by
  obtain ⟨m, h⟩ := h
  obtain ⟨n, h'⟩ := h'
  exact ⟨m + n, run_add h h'⟩

/-- The line at `pc` first. -/
theorem reaches_line {s s' s'' : Cpu} {l : Line} (hl : p[s.pc]? = some l) (he : exec l s = some s')
    (h : Reaches p s' s'') : Reaches p s s'' := by
  obtain ⟨n, h⟩ := h
  refine ⟨n + 1, Option.bind_eq_some_iff.mpr ⟨s', ?_, h⟩⟩
  rw [step, hl]
  exact he

/-- **A loop** that keeps its invariant comes to the end of its range. -/
theorem reaches_loop {I : Nat → Cpu → Prop} {n : Nat}
    (hbody : ∀ i < n, ∀ s, I i s → ∃ s', Reaches p s s' ∧ I (i + 1) s') {s : Cpu} (h : I 0 s) :
    ∃ s', Reaches p s s' ∧ I n s' := by
  induction n with
  | zero => exact ⟨s, reaches_refl s, h⟩
  | succ n ih =>
    obtain ⟨t, ht, hi⟩ := ih fun i hi => hbody i (by omega)
    obtain ⟨s', hs', hend⟩ := hbody n (by omega) t hi
    exact ⟨s', reaches_trans ht hs', hend⟩

end Run

/-! ## 3. Words one after the other -/

/-- The `n` bytes from `a` on are `v`. -/
def filled (m : Word → UInt8) (a : Word) (n : Nat) (v : UInt8) (x : Word) : UInt8 :=
  if a.toNat ≤ x.toNat ∧ x.toNat < a.toNat + n then v else m x

/-- The `n` bytes from `dst` on are the ones from `src` on. -/
def copied (m : Word → UInt8) (src dst : Word) (n : Nat) (x : Word) : UInt8 :=
  if dst.toNat ≤ x.toNat ∧ x.toNat < dst.toNat + n then m (src + BitVec.ofNat 32 (x.toNat - dst.toNat)) else m x

@[simp] theorem filled_zero (m : Word → UInt8) (a : Word) (v : UInt8) : filled m a 0 v = m := by
  funext x
  exact if_neg (by omega)

@[simp] theorem copied_zero (m : Word → UInt8) (src dst : Word) : copied m src dst 0 = m := by
  funext x
  exact if_neg (by omega)

theorem toNat_add_ofNat {a : Word} {n : Nat} (h : a.toNat + n < 2 ^ 32) :
    (a + BitVec.ofNat 32 n).toNat = a.toNat + n := by
  rw [BitVec.toNat_add, BitVec.toNat_ofNat, Nat.mod_eq_of_lt (by omega : n < 2 ^ 32), Nat.mod_eq_of_lt h]

theorem add_ofNat_add (a : Word) (m n : Nat) :
    a + BitVec.ofNat 32 m + BitVec.ofNat 32 n = a + BitVec.ofNat 32 (m + n) := by
  rw [BitVec.add_assoc, ← BitVec.ofNat_add]

/-- One word of zeros more. -/
theorem filled_step (m : Word → UInt8) {a : Word} {n : Nat} (h : a.toNat + n + 4 ≤ 2 ^ 32) :
    Stores.put (filled m a n 0) (cellsAt 4 (a + BitVec.ofNat 32 n) 0#32) = filled m a (n + 4) 0 := by
  have e := toNat_add_ofNat (a := a) (n := n) (by omega)
  have hbyte : ∀ k, byte 0#32 k = 0 := fun k => by simp [byte]
  funext x
  rw [put_cellsAt _ (by omega), e, hbyte]
  unfold filled
  by_cases hnew : a.toNat + n ≤ x.toNat ∧ x.toNat < a.toNat + n + 4
  · rw [if_pos hnew, if_pos (by omega)]
  · rw [if_neg hnew]
    exact if_congr (by omega) rfl rfl

/-- One word more, read from where nothing was written. -/
theorem copied_step (m : Word → UInt8) (src dst : Word) {n len : Nat} (hn : n + 4 ≤ len)
    (hsrc : src.toNat + len ≤ 2 ^ 32) (hdst : dst.toNat + len ≤ 2 ^ 32)
    (hapart : src.toNat + len ≤ dst.toNat ∨ dst.toNat + len ≤ src.toNat) :
    Stores.put (copied m src dst n)
        (cellsAt 4 (dst + BitVec.ofNat 32 n) (wordAt (copied m src dst n) (src + BitVec.ofNat 32 n))) =
      copied m src dst (n + 4) := by
  have e := toNat_add_ofNat (a := dst) (n := n) (by omega)
  funext x
  rw [put_cellsAt _ (by omega), e]
  by_cases hnew : dst.toNat + n ≤ x.toNat ∧ x.toNat < dst.toNat + n + 4
  · rw [if_pos hnew, byte_wordAt _ _ (by omega), add_ofNat_add]
    have es := toNat_add_ofNat (a := src) (n := n + (x.toNat - (dst.toNat + n))) (by omega)
    unfold copied
    rw [es, if_neg (by omega), if_pos (by omega)]
    congr 3
    omega
  · rw [if_neg hnew]
    exact if_congr (by omega) rfl rfl

end P4Linux.Asm
