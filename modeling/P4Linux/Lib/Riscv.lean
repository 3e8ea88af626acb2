import P4Linux.Lib.RiscvImm
import P4Linux.Lib.Stores

/-!
# A hart that runs RV32IM

Registers, bytes of memory and a program counter; what the SYSTEM instructions do is a parameter, as is the
state `σ` they work on.

* `opOf` -- what an instruction is, out of the fields that are no immediate; `opOf_keep` -- so a word whose
  immediate alone was changed is the **same instruction**;
* `exec`, `step`, `run` -- one instruction, the one at `pc`, and `n` of them one after the other;
* `Code` -- a program said by address instead of by bytes, `CodeRun` a run of it;
* `run_of_codeRun` -- a memory that spells the code out **runs as the code says**, for as long as nothing is
  stored over it.
-/

namespace P4Linux.Rv

abbrev Word := BitVec 32
abbrev Reg := BitVec 5

/-! ## 1. The hart -/

/-- `π` is what a place in the program is: an address, or a line of its text. -/
structure Hart (π σ : Type) where
  pc : π
  regs : Reg → Word
  mem : Word → UInt8
  sys : σ

section Fields

variable {π σ : Type}

/-- `x0` is always zero. -/
def Hart.get (s : Hart π σ) (r : Reg) : Word := if r = 0 then 0 else s.regs r

def Hart.set (s : Hart π σ) (r : Reg) (v : Word) : Hart π σ := { s with regs := Function.update s.regs r v }

def Hart.jump (s : Hart π σ) (a : π) : Hart π σ := { s with pc := a }

def Hart.store (s : Hart π σ) (cells : List (Word × UInt8)) : Hart π σ :=
  { s with mem := Stores.put s.mem cells }

variable (s : Hart π σ) (r : Reg) (v : Word) (a : π) (cells : List (Word × UInt8))

@[simp] theorem get_zero : s.get 0#5 = 0#32 := rfl
@[simp] theorem set_pc : (s.set r v).pc = s.pc := rfl
@[simp] theorem set_mem : (s.set r v).mem = s.mem := rfl
@[simp] theorem set_sys : (s.set r v).sys = s.sys := rfl
@[simp] theorem jump_pc : (s.jump a).pc = a := rfl
@[simp] theorem jump_mem : (s.jump a).mem = s.mem := rfl
@[simp] theorem jump_sys : (s.jump a).sys = s.sys := rfl
@[simp] theorem jump_get : (s.jump a).get r = s.get r := rfl
@[simp] theorem store_pc : (s.store cells).pc = s.pc := rfl
@[simp] theorem store_sys : (s.store cells).sys = s.sys := rfl
@[simp] theorem store_get : (s.store cells).get r = s.get r := rfl
@[simp] theorem store_mem : (s.store cells).mem = Stores.put s.mem cells := rfl

@[simp] theorem get_set (q : Reg) : (s.set r v).get q = if q = 0 then 0 else if q = r then v else s.get q := by
  unfold Hart.get Hart.set
  by_cases h0 : q = 0
  · rw [if_pos h0, if_pos h0]
  · rw [if_neg h0, if_neg h0, if_neg h0]
    exact Function.update_apply _ _ _ _

end Fields

variable {σ : Type}

/-- The instruction after this one. -/
def Hart.next (s : Hart Word σ) : Hart Word σ := s.jump (s.pc + 4)

section Next

variable (s : Hart Word σ) (r : Reg)

@[simp] theorem next_pc : s.next.pc = s.pc + 4 := rfl
@[simp] theorem next_mem : s.next.mem = s.mem := rfl
@[simp] theorem next_sys : s.next.sys = s.sys := rfl
@[simp] theorem next_get : s.next.get r = s.get r := rfl

end Next

/-! ## 2. Words in memory -/

/-- Four bytes, the lowest one first. -/
def wordAt (m : Word → UInt8) (a : Word) : Word :=
  (m (a + 3)).toBitVec ++ (m (a + 2)).toBitVec ++ (m (a + 1)).toBitVec ++ (m a).toBitVec

def halfAt (m : Word → UInt8) (a : Word) : BitVec 16 := (m (a + 1)).toBitVec ++ (m a).toBitVec

def byte (v : Word) (k : Nat) : UInt8 := ⟨v.extractLsb' (8 * k) 8⟩

/-- The cells of the lowest `n` bytes of `v` at `a`. -/
def cellsAt (n : Nat) (a v : Word) : List (Word × UInt8) :=
  (List.range n).map fun k => (a + BitVec.ofNat 32 k, byte v k)

theorem cellsAt_word (a v : Word) :
    cellsAt 4 a v = [(a, byte v 0), (a + 1, byte v 1), (a + 2, byte v 2), (a + 3, byte v 3)] := by
  have h0 : a + BitVec.ofNat 32 0 = a := BitVec.add_zero a
  have h : cellsAt 4 a v = [(a + BitVec.ofNat 32 0, byte v 0), (a + 1, byte v 1), (a + 2, byte v 2),
      (a + 3, byte v 3)] := rfl
  rw [h, h0]

theorem wordAt_congr {m m' : Word → UInt8} {a : Word} (h : ∀ k < 4, m' (a + BitVec.ofNat 32 k) =
    m (a + BitVec.ofNat 32 k)) : wordAt m' a = wordAt m a := by
  have h0 := h 0 (by omega)
  have e : a + BitVec.ofNat 32 0 = a := BitVec.add_zero a
  have h1 : m' (a + 1) = m (a + 1) := h 1 (by omega)
  have h2 : m' (a + 2) = m (a + 2) := h 2 (by omega)
  have h3 : m' (a + 3) = m (a + 3) := h 3 (by omega)
  rw [e] at h0
  rw [wordAt, wordAt, h0, h1, h2, h3]

/-- The bytes of a word in memory are the memory's. -/
theorem byte_wordAt (m : Word → UInt8) (a : Word) {k : Nat} (hk : k < 4) :
    byte (wordAt m a) k = m (a + BitVec.ofNat 32 k) := by
  have h0 : a + BitVec.ofNat 32 0 = a := BitVec.add_zero a
  apply UInt8.eq_of_toBitVec_eq
  apply BitVec.eq_of_getLsbD_eq
  intro i hi
  interval_cases k <;> simp only [byte, wordAt, BitVec.getLsbD_extractLsb', BitVec.getLsbD_append, h0]
  all_goals interval_cases i <;> simp

/-- What memory holds after a word was stored. -/
theorem put_cellsAt (m : Word → UInt8) {a v : Word} (h : a.toNat + 4 ≤ 2 ^ 32) (x : Word) :
    Stores.put m (cellsAt 4 a v) x =
      if a.toNat ≤ x.toNat ∧ x.toNat < a.toNat + 4 then byte v (x.toNat - a.toNat) else m x := by
  have key : ∀ k < 4, x = a + BitVec.ofNat 32 k ↔ x.toNat = a.toNat + k := by
    intro k hk
    rw [← BitVec.toNat_inj, BitVec.toNat_add, BitVec.toNat_ofNat, Nat.mod_eq_of_lt (by omega : k < 2 ^ 32),
      Nat.mod_eq_of_lt (by omega)]
  have h0 : x = a ↔ x.toNat = a.toNat := BitVec.toNat_inj.symm
  have h1 : x = a + 1 ↔ x.toNat = a.toNat + 1 := key 1 (by omega)
  have h2 : x = a + 2 ↔ x.toNat = a.toNat + 2 := key 2 (by omega)
  have h3 : x = a + 3 ↔ x.toNat = a.toNat + 3 := key 3 (by omega)
  simp only [cellsAt_word, Stores.put_cons, Stores.put_nil, Function.update_apply, h0, h1, h2, h3]
  by_cases hin : a.toNat ≤ x.toNat ∧ x.toNat < a.toNat + 4
  · obtain ⟨k, hk⟩ : ∃ k, x.toNat = a.toNat + k := ⟨x.toNat - a.toNat, by omega⟩
    have hlt : k < 4 := by omega
    rw [if_pos hin, hk, Nat.add_sub_cancel_left]
    interval_cases k <;> simp
  · rw [if_neg hin, if_neg (by omega), if_neg (by omega), if_neg (by omega), if_neg (by omega)]

/-! ## 3. Instructions -/

inductive Alu where
  | add | sub | sll | slt | sltu | xor | srl | sra | or | and
  | mul | mulh | mulhsu | mulhu | div | divu | rem | remu
  deriving DecidableEq, Repr

def Alu.eval (f : Alu) (a b : Word) : Word :=
  match f with
  | add => a + b
  | sub => a - b
  | sll => a <<< (b.toNat % 32)
  | slt => if a.slt b then 1 else 0
  | sltu => if a.ult b then 1 else 0
  | xor => a ^^^ b
  | srl => a >>> (b.toNat % 32)
  | sra => a.sshiftRight (b.toNat % 32)
  | or => a ||| b
  | and => a &&& b
  | mul => a * b
  | mulh => ((a.signExtend 64 * b.signExtend 64) >>> 32).setWidth 32
  | mulhsu => ((a.signExtend 64 * b.setWidth 64) >>> 32).setWidth 32
  | mulhu => ((a.setWidth 64 * b.setWidth 64) >>> 32).setWidth 32
  | div => if b = 0 then -1 else a.sdiv b
  | divu => if b = 0 then -1 else a / b
  | rem => if b = 0 then a else a.srem b
  | remu => if b = 0 then a else a % b

inductive Cond where
  | eq | ne | lt | ge | ltu | geu
  deriving DecidableEq, Repr

def Cond.holds (c : Cond) (a b : Word) : Bool :=
  match c with
  | eq => a == b
  | ne => a != b
  | lt => a.slt b
  | ge => !a.slt b
  | ltu => a.ult b
  | geu => !a.ult b

inductive Load where
  | lb | lh | lw | lbu | lhu
  deriving DecidableEq, Repr

def Load.read (l : Load) (m : Word → UInt8) (a : Word) : Word :=
  match l with
  | lb => (m a).toBitVec.signExtend 32
  | lh => (halfAt m a).signExtend 32
  | lw => wordAt m a
  | lbu => (m a).toBitVec.setWidth 32
  | lhu => (halfAt m a).setWidth 32

/-- What is left of an instruction when its immediate is taken off. A store has the number of its bytes, a
    SYSTEM instruction all of its upper 25 bits. -/
inductive Op where
  | lui (rd : Reg)
  | auipc (rd : Reg)
  | jal (rd : Reg)
  | jalr (rd rs1 : Reg)
  | branch (c : Cond) (rs1 rs2 : Reg)
  | load (l : Load) (rd rs1 : Reg)
  | store (n : Nat) (rs1 rs2 : Reg)
  | aluImm (f : Alu) (rd rs1 : Reg)
  | shift (f : Alu) (rd rs1 : Reg) (shamt : BitVec 5)
  | alu (f : Alu) (rd rs1 rs2 : Reg)
  | fence
  | system (bits : BitVec 25)
  deriving DecidableEq, Repr

/-- Where an instruction has its immediate. -/
inductive Format where
  | u | i | s | b | j | none
  deriving DecidableEq, Repr

def Op.format : Op → Format
  | lui .. | auipc .. => .u
  | jal .. => .j
  | jalr .. | load .. | aluImm .. => .i
  | branch .. => .b
  | store .. => .s
  | shift .. | alu .. | fence | system .. => .none

def Format.imm : Format → Word → Word
  | u => uImm
  | i => iImm
  | s => sImm
  | b => bImm
  | j => jImm
  | none => fun _ => 0

/-- The bits that are no immediate. -/
def Format.keep : Format → Word
  | u | j => keepU
  | i => keepI
  | s | b => keepS
  | none => -1

/-! ## 4. Decoding -/

def condOf (f3 : BitVec 3) : Option Cond :=
  if f3 = 0 then some .eq
  else if f3 = 1 then some .ne
  else if f3 = 4 then some .lt
  else if f3 = 5 then some .ge
  else if f3 = 6 then some .ltu
  else if f3 = 7 then some .geu
  else none

def loadOf (f3 : BitVec 3) : Option Load :=
  if f3 = 0 then some .lb
  else if f3 = 1 then some .lh
  else if f3 = 2 then some .lw
  else if f3 = 4 then some .lbu
  else if f3 = 5 then some .lhu
  else none

def storeOf (f3 : BitVec 3) : Option Nat :=
  if f3 = 0 then some 1 else if f3 = 1 then some 2 else if f3 = 2 then some 4 else none

/-- The functions with an immediate of 12 bits. -/
def aluImmOf (f3 : BitVec 3) : Option Alu :=
  if f3 = 0 then some .add
  else if f3 = 2 then some .slt
  else if f3 = 3 then some .sltu
  else if f3 = 4 then some .xor
  else if f3 = 6 then some .or
  else if f3 = 7 then some .and
  else none

def shiftOf (f3 : BitVec 3) (f7 : BitVec 7) : Option Alu :=
  if f3 = 1 ∧ f7 = 0 then some .sll
  else if f3 = 5 ∧ f7 = 0 then some .srl
  else if f3 = 5 ∧ f7 = 0x20 then some .sra
  else none

def aluOf (f3 : BitVec 3) (f7 : BitVec 7) : Option Alu :=
  if f7 = 0 then
    some (if f3 = 0 then .add else if f3 = 1 then .sll else if f3 = 2 then .slt else if f3 = 3 then .sltu
      else if f3 = 4 then .xor else if f3 = 5 then .srl else if f3 = 6 then .or else .and)
  else if f7 = 1 then
    some (if f3 = 0 then .mul else if f3 = 1 then .mulh else if f3 = 2 then .mulhsu else if f3 = 3 then .mulhu
      else if f3 = 4 then .div else if f3 = 5 then .divu else if f3 = 6 then .rem else .remu)
  else if f7 = 0x20 ∧ f3 = 0 then some .sub
  else if f7 = 0x20 ∧ f3 = 5 then some .sra
  else none

def opcode (x : Word) : BitVec 7 := x.extractLsb' 0 7
def rdField (x : Word) : Reg := x.extractLsb' 7 5
def funct3 (x : Word) : BitVec 3 := x.extractLsb' 12 3
def rs1Field (x : Word) : Reg := x.extractLsb' 15 5
def rs2Field (x : Word) : Reg := x.extractLsb' 20 5
def funct7 (x : Word) : BitVec 7 := x.extractLsb' 25 7

inductive Major where
  | lui | auipc | jal | jalr | branch | load | store | opImm | op | miscMem | system
  deriving DecidableEq, Repr

def majorOf (oc : BitVec 7) : Option Major :=
  if oc = 0x37 then some .lui
  else if oc = 0x17 then some .auipc
  else if oc = 0x6f then some .jal
  else if oc = 0x67 then some .jalr
  else if oc = 0x63 then some .branch
  else if oc = 0x03 then some .load
  else if oc = 0x23 then some .store
  else if oc = 0x13 then some .opImm
  else if oc = 0x33 then some .op
  else if oc = 0x0f then some .miscMem
  else if oc = 0x73 then some .system
  else none

/-- What an instruction is, by its fields. -/
def opAt (m : Major) (rd : Reg) (f3 : BitVec 3) (rs1 rs2 : Reg) (f7 : BitVec 7) : Option Op :=
  match m with
  | .lui => some (.lui rd)
  | .auipc => some (.auipc rd)
  | .jal => some (.jal rd)
  | .jalr => if f3 = 0 then some (.jalr rd rs1) else none
  | .branch => (condOf f3).map (.branch · rs1 rs2)
  | .load => (loadOf f3).map (.load · rd rs1)
  | .store => (storeOf f3).map (.store · rs1 rs2)
  | .opImm =>
    if f3 = 1 ∨ f3 = 5 then (shiftOf f3 f7).map (.shift · rd rs1 rs2) else (aluImmOf f3).map (.aluImm · rd rs1)
  | .op => (aluOf f3 f7).map (.alu · rd rs1 rs2)
  | .miscMem => some .fence
  | .system => some (.system (f7 ++ rs2 ++ rs1 ++ f3 ++ rd))

def opOf (x : Word) : Option Op :=
  (majorOf (opcode x)).bind fun m =>
    opAt m (rdField x) (funct3 x) (rs1Field x) (rs2Field x) (funct7 x)

section Fields

variable {m : Major} {rd : Reg} {f3 : BitVec 3} {rs1 rs2 : Reg} {f7 : BitVec 7} {o : Op}

/-- With a 20-bit immediate there are an opcode and a destination, nothing else. -/
theorem opAt_keepU (h : opAt m rd f3 rs1 rs2 f7 = some o) (hk : o.format = .u ∨ o.format = .j) (f3' : BitVec 3)
    (rs1' rs2' : Reg) (f7' : BitVec 7) : opAt m rd f3' rs1' rs2' f7' = some o := by
  cases m <;> simp only [opAt, Option.map_eq_some_iff] at h ⊢
  case lui | auipc | jal => exact h
  case jalr =>
    split at h <;> cases h
    simp [Op.format] at hk
  case opImm =>
    split at h <;> obtain ⟨_, -, rfl⟩ := Option.map_eq_some_iff.mp h <;> simp [Op.format] at hk
  case miscMem | system =>
    cases h
    simp [Op.format] at hk
  all_goals
    obtain ⟨_, -, rfl⟩ := h
    simp [Op.format] at hk

/-- With a 12-bit immediate at the top, the second operand and `funct7` are its bits. -/
theorem opAt_keepI (h : opAt m rd f3 rs1 rs2 f7 = some o) (hk : o.format = .i) (rs2' : Reg)
    (f7' : BitVec 7) : opAt m rd f3 rs1 rs2' f7' = some o := by
  cases m <;> simp only [opAt, Option.map_eq_some_iff] at h ⊢
  case jalr | load => exact h
  case opImm =>
    split at h <;> obtain ⟨f, hf, rfl⟩ := Option.map_eq_some_iff.mp h
    · simp [Op.format] at hk
    · rename_i hshift
      rw [if_neg hshift, hf]
      rfl
  case lui | auipc | jal | miscMem | system =>
    cases h
    simp [Op.format] at hk
  all_goals
    obtain ⟨_, -, rfl⟩ := h
    simp [Op.format] at hk

/-- With a split 12-bit immediate, the destination and `funct7` are its bits. -/
theorem opAt_keepS (h : opAt m rd f3 rs1 rs2 f7 = some o) (hk : o.format = .s ∨ o.format = .b) (rd' : Reg)
    (f7' : BitVec 7) : opAt m rd' f3 rs1 rs2 f7' = some o := by
  cases m <;> simp only [opAt, Option.map_eq_some_iff] at h ⊢
  case branch | store => exact h
  case jalr =>
    split at h <;> cases h
    simp [Op.format] at hk
  case opImm =>
    split at h <;> obtain ⟨_, -, rfl⟩ := Option.map_eq_some_iff.mp h <;> simp [Op.format] at hk
  case lui | auipc | jal | miscMem | system =>
    cases h
    simp [Op.format] at hk
  all_goals
    obtain ⟨_, -, rfl⟩ := h
    simp [Op.format] at hk

end Fields

/-- Fields inside the kept bits are kept. -/
theorem field_keep {x x' mask : Word} (h : x' &&& mask = x &&& mask) {start len : Nat}
    (hm : ∀ k < len, mask.getLsbD (start + k) = true) : x'.extractLsb' start len = x.extractLsb' start len := by
  apply BitVec.eq_of_getLsbD_eq
  intro k hk
  have hbit := congrArg (·.getLsbD (start + k)) h
  simp only [BitVec.getLsbD_and, hm k hk, Bool.and_true] at hbit
  simp [hk, hbit]

/-- **A word whose immediate alone was changed is the same instruction.** -/
theorem opOf_keep {x x' : Word} {o : Op} (ho : opOf x = some o)
    (h : x' &&& o.format.keep = x &&& o.format.keep) : opOf x' = some o := by
  obtain ⟨m, hm, ho⟩ := Option.bind_eq_some_iff.mp ho
  -- the opcode is kept whatever the format, the other fields as far as the format has them
  have hoc : opcode x' = opcode x := by
    refine field_keep h ?_
    cases o.format <;> decide
  refine Option.bind_eq_some_iff.mpr ⟨m, hoc ▸ hm, ?_⟩
  cases hk : o.format <;> rw [hk] at h
  case u | j =>
    have hrd : rdField x' = rdField x := field_keep h (by decide)
    rw [hrd]
    exact opAt_keepU ho (by simp [hk]) _ _ _ _
  case i =>
    have hrd : rdField x' = rdField x := field_keep h (by decide)
    have hf3 : funct3 x' = funct3 x := field_keep h (by decide)
    have hrs1 : rs1Field x' = rs1Field x := field_keep h (by decide)
    rw [hrd, hf3, hrs1]
    exact opAt_keepI ho hk _ _
  case s | b =>
    have hf3 : funct3 x' = funct3 x := field_keep h (by decide)
    have hrs1 : rs1Field x' = rs1Field x := field_keep h (by decide)
    have hrs2 : rs2Field x' = rs2Field x := field_keep h (by decide)
    rw [hf3, hrs1, hrs2]
    exact opAt_keepS ho (by simp [hk]) _ _
  case none =>
    have hall : ∀ y : Word, y &&& -1 = y := fun y => BitVec.and_allOnes
    rw [Format.keep, hall, hall] at h
    rw [h]
    exact ho

/-! ## 5. Execution -/

section Run

variable (env : BitVec 25 → Hart Word σ → Option (Hart Word σ))

/-- One instruction with its immediate; what a SYSTEM instruction does is up to `env`. -/
def exec (o : Op) (v : Word) (s : Hart Word σ) : Option (Hart Word σ) :=
  match o with
  | .lui rd => some (s.set rd v).next
  | .auipc rd => some (s.set rd (s.pc + v)).next
  | .jal rd => some ((s.set rd (s.pc + 4)).jump (s.pc + v))
  | .jalr rd rs1 => some ((s.set rd (s.pc + 4)).jump ((s.get rs1 + v) &&& ~~~1))
  | .branch c rs1 rs2 => some (s.jump (if c.holds (s.get rs1) (s.get rs2) then s.pc + v else s.pc + 4))
  | .load l rd rs1 => some (s.set rd (l.read s.mem (s.get rs1 + v))).next
  | .store n rs1 rs2 => some (s.store (cellsAt n (s.get rs1 + v) (s.get rs2))).next
  | .aluImm f rd rs1 => some (s.set rd (f.eval (s.get rs1) v)).next
  | .shift f rd rs1 shamt => some (s.set rd (f.eval (s.get rs1) (shamt.setWidth 32))).next
  | .alu f rd rs1 rs2 => some (s.set rd (f.eval (s.get rs1) (s.get rs2))).next
  | .fence => some s.next
  | .system bits => env bits s

/-- The instruction at `pc`. -/
def step (s : Hart Word σ) : Option (Hart Word σ) :=
  (opOf (wordAt s.mem s.pc)).bind fun o => exec env o (o.format.imm (wordAt s.mem s.pc)) s

def run : Nat → Hart Word σ → Option (Hart Word σ)
  | 0, s => some s
  | n + 1, s => (step env s).bind (run n)

/-! ## 6. Code, and the memory that spells it out -/

/-- Which instruction is at an address, and with which immediate. -/
abbrev Code := Word → Op → Word → Prop

/-- A run of the code, in which no byte of `text` changes. -/
inductive CodeRun (code : Code) (text : Word → Prop) : Nat → Hart Word σ → Hart Word σ → Prop where
  | stop (s : Hart Word σ) : CodeRun code text 0 s s
  | step {n : Nat} {s t s' : Hart Word σ} {o : Op} {v : Word} (at' : code s.pc o v) (he : exec env o v s = some t)
      (hkeep : ∀ a, text a → t.mem a = s.mem a) (rest : CodeRun code text n t s') :
      CodeRun code text (n + 1) s s'

/-- The memory has the code in it. -/
def Spells (code : Code) (m : Word → UInt8) : Prop :=
  ∀ pc o v, code pc o v → opOf (wordAt m pc) = some o ∧ o.format.imm (wordAt m pc) = v

variable {env}

/-- **Code that is spelled out runs as it says.** -/
theorem run_of_codeRun {code : Code} {text : Word → Prop} (htext : ∀ pc o v, code pc o v →
    ∀ k < 4, text (pc + BitVec.ofNat 32 k)) {n : Nat} {s s' : Hart Word σ} (hsp : Spells code s.mem)
    (h : CodeRun env code text n s s') : run env n s = some s' ∧ Spells code s'.mem := by
  induction h with
  | stop s => exact ⟨rfl, hsp⟩
  | @step n s t s' o v hat he hkeep rest ih =>
    have ht : Spells code t.mem := by
      intro pc o v hc
      have e : wordAt t.mem pc = wordAt s.mem pc := wordAt_congr fun k hk => hkeep _ (htext pc o v hc k hk)
      rw [e]
      exact hsp pc o v hc
    obtain ⟨hrun, hend⟩ := ih ht
    obtain ⟨hop, himm⟩ := hsp _ _ _ hat
    refine ⟨?_, hend⟩
    have hstep : Rv.step env s = some t := by
      unfold Rv.step
      rw [hop]
      show exec env o (o.format.imm (wordAt s.mem s.pc)) s = some t
      rw [himm]
      exact he
    exact Option.bind_eq_some_iff.mpr ⟨t, hstep, hrun⟩

end Run

end P4Linux.Rv
