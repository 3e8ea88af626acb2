import P4Linux.Lib.Asm

/-!
# start.S, trap.S and jump.S

The assembly the bootloader begins and ends with. The symbols are those of `esp32p4.ld`: what the linker may
choose is a field of `Link`, what the script computes is computed here.

* `start_calls_main` -- **from any state of the hart** at reset the text comes to `call main`: `.bss` is zero and
  not one byte beside it is changed, the stack and `gp` are set, interrupts are off at both levels;
* `start_reports` -- from the moment `mtvec` is written, an exception **anywhere in the run** ends in
  `trap_report` with what happened, on a stack that does not depend on it;
* `jump_hands_over` -- the registers and control registers the kernel is entered with.
-/

namespace P4Linux.Boot

open Asm
open Rv hiding exec step run

/-! ## 1. The symbols -/

def sramOrigin : Nat := 0x4ff00000
def sramLength : Nat := 0x29000

/-- `ALIGN(4)`. -/
def align4 (n : Nat) : Nat := (n + 3) / 4 * 4

/-- What the linker has put where. `bssAt` is the location counter at the head of `.bss`, `bssSize` what
    `.sbss`, `.bss` and COMMON take after `_bss_start`. -/
structure Link where
  globalPointer : Word
  bssAt : Nat
  bssSize : Nat
  main : Word
  trapEntry : Word
  trapReport : Word
  /-- `> sram`: the linker refuses what does not fit -/
  inside : sramOrigin ≤ bssAt ∧ align4 (align4 bssAt + bssSize) ≤ sramOrigin + sramLength
  /-- `.align 4` -/
  trapAligned : trapEntry.toNat % 16 = 0

variable (k : Link)

def Link.bssStart : Nat := align4 k.bssAt
def Link.bssEnd : Nat := align4 (k.bssStart + k.bssSize)

/-- `_stack_top = ORIGIN(sram) + LENGTH(sram)`. -/
def stackTop : Word := BitVec.ofNat 32 (sramOrigin + sramLength)

/-- The two ends of `.bss`, a whole number of words apart and below the stack's top. -/
theorem bss_words : ∃ n, k.bssEnd = k.bssStart + 4 * n ∧ k.bssStart % 4 = 0 ∧
    sramOrigin ≤ k.bssStart ∧ k.bssEnd ≤ sramOrigin + sramLength := by
  obtain ⟨hlo, hhi⟩ := k.inside
  unfold Link.bssEnd Link.bssStart
  unfold align4 at hhi ⊢
  refine ⟨((k.bssAt + 3) / 4 * 4 + k.bssSize + 3) / 4 - (k.bssAt + 3) / 4, ?_, ?_, ?_, hhi⟩ <;> omega

/-! ## 2. The text -/

abbrev zero : Reg := 0#5
abbrev sp : Reg := 2#5
abbrev gp : Reg := 3#5
abbrev t0 : Reg := 5#5
abbrev t1 : Reg := 6#5
abbrev a0 : Reg := 10#5
abbrev a1 : Reg := 11#5
abbrev a2 : Reg := 12#5

/-- `_start`; its labels `1:`, `2:` and `3:` are the lines 8, 12 and 13. -/
def start : List Line :=
  [.la gp k.globalPointer,
    .la sp stackTop,
    .csrw mie zero,
    .csrci mstatus 8,
    .la t0 k.trapEntry,
    .csrw mtvec t0,
    .la t0 (BitVec.ofNat 32 k.bssStart),
    .la t1 (BitVec.ofNat 32 k.bssEnd),
    .branch .geu t0 t1 12,
    .sw zero 0 t0,
    .addi t0 t0 4,
    .j 8,
    .call k.main,
    .wfi,
    .j 13]

/-- `trap_entry`. -/
def trapText : List Line :=
  [.csrr a0 mcause,
    .csrr a1 mepc,
    .csrr a2 mtval,
    .la sp stackTop,
    .call k.trapReport,
    .wfi,
    .j 5]

/-- `jump_to_linux`. -/
def jumpToLinux : List Line :=
  [.mv t0 a0,
    .mv t1 a1,
    .csrci mstatus 8,
    .csrw mie zero,
    .fence,
    .fenceI,
    .li a0 0,
    .mv a1 t1,
    .jr t0]

/-! ## 3. From reset to main -/

/-- The loop that zeroes `.bss`, with `4 * i` bytes done: the line is its label, nothing but `t0` and those bytes
    is not as in `s`. -/
structure Zeroing (s : Cpu) (i : Nat) (s' : Cpu) : Prop where
  line : s'.pc = 8
  t0 : s'.get t0 = BitVec.ofNat 32 (k.bssStart + 4 * i)
  t1 : s'.get t1 = BitVec.ofNat 32 k.bssEnd
  regs : ∀ r, r ≠ Boot.t0 → s'.get r = s.get r
  sys : s'.sys = s.sys
  mem : s'.mem = filled s.mem (BitVec.ofNat 32 k.bssStart) (4 * i) 0

variable {k}

theorem zeroing_body {s s' : Cpu} {i n : Nat} (hn : k.bssEnd = k.bssStart + 4 * n) (hi : i < n)
    (h : Zeroing k s i s') : ∃ s'', Reaches (start k) s' s'' ∧ Zeroing k s (i + 1) s'' := by
  obtain ⟨-, -, -, hlo, hhi⟩ := bss_words k
  unfold sramOrigin sramLength at hhi
  have hless : Cond.geu.holds (s'.get t0) (s'.get t1) = false := by
    rw [h.t0, h.t1]
    simp only [Cond.holds, Bool.not_eq_false', BitVec.ult, BitVec.toNat_ofNat, decide_eq_true_eq]
    omega
  have hpast : exec (.branch .geu t0 t1 12) s' = some (s'.jump 9) := by simp [exec, hless, h.line]
  refine ⟨_, reaches_line (by rw [h.line]; rfl) hpast (reaches_line rfl rfl (reaches_line rfl rfl
    (reaches_line rfl rfl (reaches_refl _)))), ?_⟩
  constructor
  case line => rfl
  case t0 => simp +decide [h.t0, Nat.mul_succ, BitVec.ofNat_add, BitVec.add_assoc]
  case t1 => simp +decide [h.t1]
  case regs =>
    intro r hr
    have hr' : r ≠ t0 := hr
    by_cases h0 : r = 0#5
    · simp [h0]
    · simp [h0, hr', h.regs r hr]
  case sys => exact h.sys
  case mem =>
    have e := filled_step s.mem (a := BitVec.ofNat 32 k.bssStart) (n := 4 * i)
      (by rw [BitVec.toNat_ofNat]; omega)
    rw [← BitVec.ofNat_add] at e
    simp [h.mem, h.t0, e, Nat.mul_succ]

/-- The text up to the label of the loop. -/
theorem start_zeroing {s : Cpu} (h : s.pc = 0) : ∃ s', Reaches (start k) s s' ∧ s'.pc = 8 ∧
    s'.get gp = k.globalPointer ∧ s'.get sp = stackTop ∧ s'.get t0 = BitVec.ofNat 32 k.bssStart ∧
    s'.get t1 = BitVec.ofNat 32 k.bssEnd ∧ s'.mem = s.mem ∧ s'.sys = Function.update (Function.update
      (Function.update s.sys mie 0) mstatus (s.sys mstatus &&& ~~~8)) mtvec k.trapEntry := by
  obtain ⟨pc, regs, mem, sys⟩ := s
  obtain rfl : pc = 0 := h
  refine ⟨_, ⟨8, rfl⟩, ?_⟩
  simp +decide

/-- What `main` is called with. -/
structure Ready (k : Link) (s s' : Cpu) : Prop where
  sp : s'.get sp = stackTop
  gp : s'.get gp = k.globalPointer
  masked : s'.sys mie = 0
  off : s'.sys mstatus = s.sys mstatus &&& ~~~8
  vector : s'.sys mtvec = k.trapEntry
  others : ∀ c, c ≠ mie → c ≠ mstatus → c ≠ mtvec → s'.sys c = s.sys c
  bss : ∀ a : Word, k.bssStart ≤ a.toNat → a.toNat < k.bssEnd → s'.mem a = 0
  rest : ∀ a : Word, a.toNat < k.bssStart ∨ k.bssEnd ≤ a.toNat → s'.mem a = s.mem a

/-- **From reset to `main`**, whatever the registers, the control registers and the memory were. -/
theorem start_calls_main (k : Link) {s : Cpu} (h : s.pc = 0) :
    ∃ s', Leaves (start k) s s' k.main ∧ Ready k s s' := by
  obtain ⟨n, hn, -, hlo, hhi⟩ := bss_words k
  unfold sramOrigin sramLength at hhi
  obtain ⟨t, hst, hpc, hgp, hsp, ht0, ht1, hmem, hsys⟩ := start_zeroing (k := k) h
  obtain ⟨t', htt, hz⟩ := reaches_loop (I := Zeroing k t) (n := n) (fun i hi s' hs' => zeroing_body hn hi hs')
    (s := t) ⟨hpc, ht0, ht1, fun _ _ => rfl, rfl, by simp⟩
  -- the pointer has come to the end, and the branch is taken
  have hdone : exec (.branch .geu t0 t1 12) t' = some (t'.jump 12) := by
    simp [exec, Cond.holds, hz.t0, hz.t1, hn, BitVec.ult]
  have hz' : t'.mem = filled s.mem (BitVec.ofNat 32 k.bssStart) (4 * n) 0 := by rw [hz.mem, hmem]
  have hstart : (BitVec.ofNat 32 k.bssStart).toNat = k.bssStart := by
    rw [BitVec.toNat_ofNat, Nat.mod_eq_of_lt (by omega)]
  refine ⟨t'.jump 12, ⟨reaches_trans hst (reaches_trans htt
    (reaches_line (by rw [hz.line]; rfl) hdone (reaches_refl _))), _, rfl, rfl⟩, ?_⟩
  constructor
  case sp => simp [hz.regs Boot.sp (by decide), hsp]
  case gp => simp [hz.regs Boot.gp (by decide), hgp]
  case masked => simp +decide [hz.sys, hsys]
  case off => simp +decide [hz.sys, hsys]
  case vector => simp [hz.sys, hsys]
  case others =>
    intro c h1 h2 h3
    rw [jump_sys, hz.sys, hsys, Function.update_of_ne h3, Function.update_of_ne h2, Function.update_of_ne h1]
  case bss =>
    intro a ha ha'
    rw [jump_mem, hz', filled, hstart, if_pos (by omega)]
  case rest =>
    intro a ha
    rw [jump_mem, hz', filled, hstart, if_neg (by omega)]

/-- `.bss` begins two bytes off a word, as nine bytes, and SRAM is full of ones. -/
def linkAtOdd : Link where
  globalPointer := 0x4ff04800
  bssAt := 0x4ff04002
  bssSize := 9
  main := 0x4ff00100
  trapEntry := 0x4ff00200
  trapReport := 0x4ff00300
  inside := by decide
  trapAligned := by decide

theorem start_calls_main_ones : ∃ s', Leaves (start linkAtOdd) ⟨0, fun _ => -1, fun _ => 0xff, fun _ => -1⟩ s'
    0x4ff00100 ∧ s'.mem 0x4ff04003 = 0xff ∧ s'.mem 0x4ff04004 = 0 ∧ s'.mem 0x4ff0400f = 0 := by
  obtain ⟨s', hleave, hready⟩ := start_calls_main linkAtOdd (s := ⟨0, fun _ => -1, fun _ => 0xff, fun _ => -1⟩) rfl
  exact ⟨s', hleave, hready.rest _ (by decide), hready.bss _ (by decide) (by decide),
    hready.bss _ (by decide) (by decide)⟩

/-- If `main` comes back the hart stays in the two lines after the call and changes nothing. -/
theorem start_parks (k : Link) (n : Nat) {s : Cpu} (h : s.pc = 13 ∨ s.pc = 14) :
    ∃ s', run (start k) n s = some s' ∧ (s'.pc = 13 ∨ s'.pc = 14) ∧ s' = s.jump s'.pc := by
  induction n generalizing s with
  | zero => exact ⟨s, rfl, h, rfl⟩
  | succ n ih =>
    have hstep : ∃ t, step (start k) s = some t ∧ (t.pc = 13 ∨ t.pc = 14) ∧ t = s.jump t.pc := by
      obtain ⟨pc, regs, mem, sys⟩ := s
      obtain rfl | rfl := h
      · exact ⟨_, rfl, .inr rfl, rfl⟩
      · exact ⟨_, rfl, .inl rfl, rfl⟩
    obtain ⟨t, ht, hpc, e⟩ := hstep
    obtain ⟨s', hs', hpc', e'⟩ := ih hpc
    refine ⟨s', ?_, hpc', ?_⟩
    · rw [run, ht]
      exact hs'
    · rw [e', e]
      rfl

/-! ## 4. Exceptions -/

/-- What the hart does on an exception with a DIRECT vector: the three registers say what happened, MIE moves to
    MPIE, and the text at the vector begins. -/
def takeTrap (s : Cpu) (cause epc tval status : Word) : Cpu :=
  setCsr (setCsr (setCsr (setCsr (s.jump 0) mepc epc) mcause cause) mtval tval) mstatus status

/-- An exception at `s` is reported: it vectors to `trap_entry`, in DIRECT mode, and the text there hands its
    cause, place and value to `trap_report` on a fresh stack, with memory as it was. -/
def Reported (k : Link) (s : Cpu) : Prop :=
  s.sys mtvec = k.trapEntry ∧ (s.sys mtvec).toNat % 4 = 0 ∧ ∀ cause epc tval status,
    ∃ s', Leaves (trapText k) (takeTrap s cause epc tval status) s' k.trapReport ∧
      s'.get a0 = cause ∧ s'.get a1 = epc ∧ s'.get a2 = tval ∧ s'.get sp = stackTop ∧ s'.mem = s.mem

theorem reported_of_vector {s : Cpu} (h : s.sys mtvec = k.trapEntry) : Reported k s := by
  have haligned := k.trapAligned
  refine ⟨h, by rw [h]; omega, fun cause epc tval status => ?_⟩
  refine ⟨_, ⟨⟨4, rfl⟩, _, rfl, rfl⟩, ?_⟩
  simp +decide [takeTrap]

/-- Up to the line that writes `mtvec` its operand is on the way there, after it the register has it. -/
def Armed (k : Link) (s : Cpu) : Prop :=
  s.pc ≤ 4 ∨ s.pc = 5 ∧ s.get t0 = k.trapEntry ∨ 6 ≤ s.pc ∧ s.sys mtvec = k.trapEntry

theorem step_armed {s s' : Cpu} (h : step (start k) s = some s') (ha : Armed k s) : Armed k s' := by
  obtain ⟨pc, regs, mem, sys⟩ := s
  have hlt : pc < 15 := by
    by_contra hge
    rw [step, List.getElem?_eq_none (by simpa [start] using hge)] at h
    cases h
  unfold Armed at ha ⊢
  interval_cases pc <;> simp [step, start, exec] at h <;> subst h
  -- the lines up to the one that writes the vector, that line, the loop's branch, and the others
  case «4» => simp +decide
  case «5» => simpa using ha
  case «8» =>
    have hv : sys mtvec = k.trapEntry := by simpa using ha
    split_ifs <;> simpa using hv
  all_goals simp_all

/-- **Everything after the vector is set is guarded**: from any state at reset, wherever in the text the hart has
    got to past that line, an exception is reported. -/
theorem start_reports (k : Link) {s s' : Cpu} (h : s.pc = 0) {n : Nat} (hrun : run (start k) n s = some s')
    (hpast : 6 ≤ s'.pc) : Reported k s' := by
  have harmed : Armed k s' := by
    have hinit : Armed k s := .inl (by omega)
    clear h
    induction n generalizing s with
    | zero =>
      cases hrun
      exact hinit
    | succ n ih =>
      obtain ⟨t, ht, hrun⟩ := Option.bind_eq_some_iff.mp hrun
      exact ih hrun (step_armed ht hinit)
  rcases harmed with h4 | ⟨h5, -⟩ | ⟨-, hv⟩
  · omega
  · omega
  · exact reported_of_vector hv

/-- In the middle of the loop over `.bss`, say. -/
theorem start_reports_loop : ∃ s', run (start linkAtOdd) 9 ⟨0, fun _ => -1, fun _ => 0xff, fun _ => -1⟩ = some s' ∧
    s'.pc = 9 ∧ Reported linkAtOdd s' :=
  ⟨_, rfl, rfl, start_reports linkAtOdd (s := ⟨0, fun _ => -1, fun _ => 0xff, fun _ => -1⟩) rfl (n := 9) rfl (by decide)⟩

/-! ## 5. The jump -/

/-- **The hand-over**, from any state `jump_to_linux(entry, dtb)` is called in: it leaves for `entry` with
    hart 0 and the device tree in the registers the boot protocol names, interrupts off at both levels, and the
    memory, `mtvec` and the other control registers as they were. -/
theorem jump_hands_over {s : Cpu} (h : s.pc = 0) :
    ∃ s', Leaves jumpToLinux s s' (s.get a0) ∧ s'.get a0 = 0 ∧ s'.get a1 = s.get a1 ∧ s'.mem = s.mem ∧
      s'.sys = Function.update (Function.update s.sys mstatus (s.sys mstatus &&& ~~~8)) mie 0 := by
  obtain ⟨pc, regs, mem, sys⟩ := s
  obtain rfl : pc = 0 := h
  refine ⟨_, ⟨⟨8, rfl⟩, _, rfl, rfl⟩, ?_⟩
  simp +decide

end P4Linux.Boot
