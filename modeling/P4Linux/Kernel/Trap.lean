import Mathlib.Data.BitVec
import Mathlib.Logic.Function.Basic

/-!
# Traps: from the user and from the kernel, and back

The shim that patch 0001 puts around the traps of `entry.S`, as 0023 and 0031 change it. The core saves privilege and
interrupt enable in mcause, where Linux looks for them in mstatus: the entry copies them over, the exit copies them
back, and what the kernel has made of the saved status in between is what the user goes on with.

* `Machine`, `Step` -- tasks with their kernel stacks, traps into traps, context switches, and a kernel that may write
  what it likes to the registers of a user;
* `returns_right` -- **a trap is told by the thread pointer** it came with, in every state that is reached, and the
  kernel goes on as it was;
* `user_interrupts_iff` -- the user runs **with interrupts on** in every state that is reached; patch 0023 sees to that;
* `always_machine_iff` -- and the core never leaves M-mode, which takes patch 0031.
-/

namespace P4Linux.Kernel.Trap

/-! ## 1. The shim -/

inductive Version where
  /-- patch 0001; 0023; 0031 -/
  | baseline | forceMpie | machineMode
  deriving DecidableEq, Repr

/-- Whose code it is. -/
inductive Side where
  | user | kernel
  deriving DecidableEq, Repr

/-- What the shim uses of `pt_regs`. -/
structure Frame where
  status : BitVec 32
  cause : BitVec 32
  tp : BitVec 32
  /-- whose code PT_EPC points into, and whether interrupts were on there -/
  came : Side
  mie : Bool
  deriving DecidableEq, Repr

/-- mcause as the core sets it: interrupt, mpp[29:28], mpie[27], mpil[23:16], code[11:0]. -/
def mcauseOf (int : Bool) (priv : BitVec 2) (mie : Bool) (mpil : BitVec 8) (code : BitVec 12) : BitVec 32 :=
  (BitVec.ofBool int).setWidth 32 <<< 31 ||| priv.setWidth 32 <<< 28 ||| (BitVec.ofBool mie).setWidth 32 <<< 27 |||
    mpil.setWidth 32 <<< 16 ||| code.setWidth 32

/-- The entry side: PT_STATUS, of mstatus in `s1`, mcause in `s4` and the thread pointer of before in `s5`. -/
def entryStatus (v : Version) (s1 s4 s5 tp : BitVec 32) : BitVec 32 :=
  let s1 := match v with
    | .baseline | .forceMpie => s1 ||| (s4 >>> 17 &&& 3#32 <<< 11)
    | .machineMode =>
      let t0 : BitVec 32 := (if s5 ^^^ tp = 0#32 then 0#32 else 1#32) + (-1#32)
      s1 ||| (3#32 <<< 11 &&& t0)
  s1 ||| (s4 >>> 20 &&& 1#32 <<< 7)

/-- PT_CAUSE: an interrupt's as it is, an exception's without mpil, and a system call's as from U-mode. -/
def entryCause (s4 : BitVec 32) : BitVec 32 :=
  if s4.msb then s4
  else
    let s4 := s4 &&& ~~~0x00FF0000#32
    if s4 &&& 0xfff#32 = 11#32 then 8#32 else s4

/-- The exit side: mcause for the `mret`, of a frame and the thread pointer of the task. -/
def exitCause (v : Version) (f : Frame) (tp : BitVec 32) : BitVec 32 :=
  let a3 := f.cause &&& ~~~(0xFF#32 <<< 16 ||| 0xF#32 <<< 27)
  let a3 := a3 ||| (f.status >>> 11 &&& 3#32) <<< 28
  let a3 := a3 ||| (f.status >>> 7 &&& 1#32) <<< 27
  if f.tp = tp then a3
  else match v with
    | .baseline => a3
    | .forceMpie => a3 ||| 1#32 <<< 27
    | .machineMode => a3 ||| (3#32 <<< 28 ||| 1#32 <<< 27)

/-- `user_mode(regs)`. -/
def userMode (f : Frame) (tp : BitVec 32) : Bool := f.tp ≠ tp

/-- What `mret` takes from mcause: the privilege, interrupt enable, and whether it goes for a vector table. -/
def mpp (cause : BitVec 32) : BitVec 2 := cause.extractLsb' 28 2
def mpie (cause : BitVec 32) : Bool := cause.getLsbD 27
def minhv (cause : BitVec 32) : Bool := cause.getLsbD 30

/-! ## 2. The bits -/

section Bits

variable {v : Version} {f : Frame} {tp : BitVec 32}

theorem minhv_exit (v : Version) (f : Frame) (tp : BitVec 32) : minhv (exitCause v f tp) = false := by
  unfold minhv exitCause
  split
  · simp
  · cases v <;> simp

/-- For its own side the exit takes what the frame says. -/
theorem mpie_same (v : Version) (h : f.tp = tp) : mpie (exitCause v f tp) = f.status.getLsbD 7 := by
  unfold mpie exitCause
  rw [if_pos h]
  simp

theorem mpp_same (v : Version) (h : f.tp = tp) : mpp (exitCause v f tp) = f.status.extractLsb' 11 2 := by
  unfold mpp exitCause
  rw [if_pos h]
  apply BitVec.eq_of_getLsbD_eq
  intro i hi
  obtain rfl | rfl : i = 0 ∨ i = 1 := by omega
  all_goals simp

theorem mpie_user (hv : v ≠ .baseline) (h : f.tp ≠ tp) : mpie (exitCause v f tp) = true := by
  unfold mpie exitCause
  rw [if_neg h]
  cases v with
  | baseline => exact absurd rfl hv
  | forceMpie => simp
  | machineMode => simp

theorem mpp_user (h : f.tp ≠ tp) : mpp (exitCause .machineMode f tp) = 3#2 := by
  unfold mpp exitCause
  rw [if_neg h]
  apply BitVec.eq_of_getLsbD_eq
  intro i hi
  obtain rfl | rfl : i = 0 ∨ i = 1 := by omega
  all_goals simp

variable {int mie : Bool} {priv : BitVec 2} {mpil : BitVec 8} {code : BitVec 12} {s1 s5 : BitVec 32}

theorem mcause_mie (int mie : Bool) (priv : BitVec 2) (mpil : BitVec 8) (code : BitVec 12) :
    (mcauseOf int priv mie mpil code)[27] = mie := by
  simp [mcauseOf]

theorem mcause_priv (int mie : Bool) (priv : BitVec 2) (mpil : BitVec 8) (code : BitVec 12) :
    (mcauseOf int priv mie mpil code)[28] = priv[0] ∧
    (mcauseOf int priv mie mpil code)[29] = priv[1] := by
  simp [mcauseOf]

/-- mstatus, with the bits that are hardwired to 0 on this core. -/
def Bare (s1 : BitVec 32) : Prop := s1[7] = false ∧ s1[11] = false ∧ s1[12] = false

theorem status_mie (v : Version) (h : Bare s1) :
    (entryStatus v s1 (mcauseOf int priv mie mpil code) s5 tp).getLsbD 7 = mie := by
  have hm := mcause_mie int mie priv mpil code
  unfold entryStatus
  obtain ⟨h7, -, -⟩ := h
  cases v <;> simp [h7, hm]

theorem status_priv_kernel (v : Version) (h : Bare s1) :
    (entryStatus v s1 (mcauseOf int 3#2 mie mpil code) tp tp).extractLsb' 11 2 = 3#2 := by
  obtain ⟨h1, h2⟩ := mcause_priv int mie 3#2 mpil code
  obtain ⟨-, h11, h12⟩ := h
  apply BitVec.eq_of_getLsbD_eq
  intro i hi
  unfold entryStatus
  obtain rfl | rfl : i = 0 ∨ i = 1 := by omega
  all_goals
    cases v <;> simp [h11, h12, h1, h2]

end Bits

/-! ## 3. The machine -/

structure Machine where
  running : Side
  priv : BitVec 2
  mie : Bool
  tp : BitVec 32
  scratch : BitVec 32
  /-- an `mret` that went for a vector table -/
  wedged : Bool
  cur : Nat
  kstack : Nat → List Frame

/-- A trap, and `handle_exception` up to the handler. -/
def Machine.trapped (v : Version) (m : Machine) (s1 : BitVec 32) (int : Bool) (mpil : BitVec 8) (code : BitVec 12) :
    Machine :=
  let s4 := mcauseOf int m.priv m.mie mpil code
  -- csrrw tp, CSR_SCRATCH, tp; bnez tp: scratch is 0 while the kernel runs
  let tp := if m.scratch ≠ 0#32 then m.scratch else m.tp
  let f : Frame := ⟨entryStatus v s1 s4 m.tp tp, entryCause s4, m.tp, m.running, m.mie⟩
  { m with
    running := .kernel
    priv := 3#2
    mie := false
    tp := tp
    scratch := 0#32
    kstack := Function.update m.kstack m.cur (f :: m.kstack m.cur) }

/-- `ret_from_exception` with the frame `f`, and the `mret`. -/
def Machine.returned (v : Version) (m : Machine) (f : Frame) (fs : List Frame) : Machine :=
  { m with
    running := f.came
    priv := mpp (exitCause v f m.tp)
    mie := mpie (exitCause v f m.tp)
    tp := f.tp
    scratch := if userMode f m.tp then m.tp else m.scratch
    wedged := minhv (exitCause v f m.tp)
    kstack := Function.update m.kstack m.cur fs }

section Runs

variable (v : Version) (ktp : Nat → BitVec 32)

/-- What goes on; `ktp c` is the thread pointer of the kernel for the task `c`. -/
inductive Step : Machine → Machine → Prop where
  /-- the user does what it likes with its thread pointer, but for the kernel's -/
  | user {m : Machine} {tp : BitVec 32} (hr : m.running = .user) (h : tp ≠ ktp m.cur) : Step m { m with tp := tp }
  | trap {m : Machine} {s1 : BitVec 32} {int : Bool} {mpil : BitVec 8} {code : BitVec 12} (hs : Bare s1)
      (hint : int = true → m.mie = true) : Step m (m.trapped v s1 int mpil code)
  /-- the kernel turns interrupts on and off -/
  | irq {m : Machine} (b : Bool) (hr : m.running = .kernel) : Step m { m with mie := b }
  /-- a signal, ptrace or exec: the registers of a user are what the kernel makes of them -/
  | write {m : Machine} {c : Nat} {fs : List Frame} {f f' : Frame} (hr : m.running = .kernel)
      (hc : m.kstack c = fs ++ [f]) (hf : f.came = .user) (hf' : f'.came = .user) (htp : f'.tp ≠ ktp c) :
      Step m { m with kstack := Function.update m.kstack c (fs ++ [f']) }
  /-- fork, and a kernel thread that becomes a process -/
  | start {m : Machine} {c : Nat} {f : Frame} (hr : m.running = .kernel) (hc : m.kstack c = []) (hf : f.came = .user)
      (htp : f.tp ≠ ktp c) : Step m { m with kstack := Function.update m.kstack c [f] }
  /-- a task is gone -/
  | exit {m : Machine} {c : Nat} (hr : m.running = .kernel) (hc : c ≠ m.cur) :
      Step m { m with kstack := Function.update m.kstack c [] }
  | switch {m : Machine} (c : Nat) (b : Bool) (hr : m.running = .kernel) :
      Step m { m with cur := c, tp := ktp c, mie := b }
  | ret {m : Machine} {f : Frame} {fs : List Frame} (hr : m.running = .kernel) (hs : m.kstack m.cur = f :: fs) :
      Step m (m.returned v f fs)

/-- The kernel boots with the trap vector set. -/
def boot : Machine := ⟨.kernel, 3#2, false, ktp 0, 0#32, false, 0, fun _ => []⟩

inductive Reachable : Machine → Prop where
  | boot : Reachable (boot ktp)
  | step {m m' : Machine} (h : Reachable m) (hs : Step v ktp m m') : Reachable m'

/-- A stack: traps from the kernel, and below them the trap from the user, or that of a thread without one. -/
inductive Stack (t : BitVec 32) : List Frame → Prop where
  | empty : Stack t []
  | user {f : Frame} (hf : f.came = .user) (htp : f.tp ≠ t) : Stack t [f]
  | kernel {f : Frame} {fs : List Frame} (hf : f.came = .kernel) (htp : f.tp = t)
      (hmie : mpie (exitCause v f t) = f.mie) (hpriv : mpp (exitCause v f t) = 3#2) (rest : Stack t fs) :
      Stack t (f :: fs)

structure Inv (m : Machine) : Prop where
  kstack : ∀ c, Stack v (ktp c) (m.kstack c)
  wedged : m.wedged = false
  kernel : m.running = .kernel → m.tp = ktp m.cur ∧ m.scratch = 0#32 ∧ m.priv = 3#2
  user : m.running = .user → m.tp ≠ ktp m.cur ∧ m.scratch = ktp m.cur ∧ m.kstack m.cur = [] ∧
    (v ≠ .baseline → m.mie = true) ∧ (v = .machineMode → m.priv = 3#2)

end Runs

section Invariant

variable {v : Version} {ktp : Nat → BitVec 32} {m m' : Machine}

theorem stack_update {c : Nat} {fs : List Frame} {ss : Nat → List Frame} (h : ∀ c, Stack v (ktp c) (ss c))
    (hc : Stack v (ktp c) fs) : ∀ c', Stack v (ktp c') (Function.update ss c fs c') := by
  intro c'
  rw [Function.update_apply]
  split
  · rename_i heq
    rw [heq]
    exact hc
  · exact h c'

/-- The registers of the user are at the bottom, and what is written there stays a stack. -/
theorem Stack.write {t : BitVec 32} {fs : List Frame} {f f' : Frame} (h : Stack v t (fs ++ [f])) (hf' : f'.came = .user)
    (htp : f'.tp ≠ t) : Stack v t (fs ++ [f']) := by
  induction fs with
  | nil => exact .user hf' htp
  | cons g fs ih =>
    cases fs with
    | nil =>
      cases h with
      | kernel hk ht hm hp rest => exact .kernel hk ht hm hp (ih rest)
    | cons g' fs =>
      cases h with
      | kernel hk ht hm hp rest => exact .kernel hk ht hm hp (ih rest)

theorem trapped_inv (hk : ∀ c, ktp c ≠ 0#32) {s1 : BitVec 32} (hs : Bare s1) (int : Bool) (mpil : BitVec 8)
    (code : BitVec 12) (hi : Inv v ktp m) : Inv v ktp (m.trapped v s1 int mpil code) := by
  cases hr : m.running with
  | kernel =>
    obtain ⟨htp, hsc, hpriv⟩ := hi.kernel hr
    have htp' : (if m.scratch ≠ 0#32 then m.scratch else m.tp) = ktp m.cur := by rw [hsc, if_neg (by simp), htp]
    refine ⟨stack_update hi.kstack ?_, hi.wedged, ?_, ?_⟩
    · refine .kernel hr htp ?_ ?_ (hi.kstack m.cur)
      · rw [mpie_same v htp]
        exact status_mie v hs
      · rw [mpp_same v htp]
        change (entryStatus v s1 (mcauseOf int m.priv m.mie mpil code) m.tp
          (if m.scratch ≠ 0#32 then m.scratch else m.tp)).extractLsb' 11 2 = 3#2
        rw [htp', htp, hpriv]
        exact status_priv_kernel v hs
    · exact fun _ => ⟨htp', rfl, rfl⟩
    · intro h
      cases h
  | user =>
    obtain ⟨htp, hsc, hst, -, -⟩ := hi.user hr
    refine ⟨stack_update hi.kstack ?_, hi.wedged, ?_, ?_⟩
    · rw [hst]
      exact .user hr htp
    · refine fun _ => ⟨?_, rfl, rfl⟩
      change (if m.scratch ≠ 0#32 then m.scratch else m.tp) = ktp m.cur
      rw [hsc, if_pos (hk m.cur)]
    · intro h
      cases h

/-- **The return**: a frame from the kernel takes the kernel back to where it was, one from the user goes to the
    user. -/
theorem returned_inv {f : Frame} {fs : List Frame} (hr : m.running = .kernel) (hs : m.kstack m.cur = f :: fs)
    (hi : Inv v ktp m) : Inv v ktp (m.returned v f fs) := by
  obtain ⟨htp, hsc, hpriv⟩ := hi.kernel hr
  have hstack := hi.kstack m.cur
  rw [hs] at hstack
  cases hstack with
  | user hf hne =>
    refine ⟨stack_update hi.kstack .empty, minhv_exit v f m.tp, ?_, ?_⟩
    · intro h
      rw [Machine.returned, hf] at h
      cases h
    · intro _
      have hne' : f.tp ≠ m.tp := by rwa [htp]
      have hscr : (if userMode f m.tp = true then m.tp else m.scratch) = m.tp := if_pos (by simpa [userMode] using hne')
      refine ⟨hne, hscr.trans htp, Function.update_self _ _ _, ?_, ?_⟩
      · exact fun hv => mpie_user hv hne'
      · rintro rfl
        exact mpp_user hne'
  | kernel hf heq hmie hp rest =>
    refine ⟨stack_update hi.kstack rest, minhv_exit v f m.tp, ?_, ?_⟩
    · intro _
      have hscr : (if userMode f m.tp = true then m.tp else m.scratch) = m.scratch :=
        if_neg (by simp [userMode, heq, htp])
      refine ⟨heq, hscr.trans hsc, ?_⟩
      change mpp (exitCause v f m.tp) = 3#2
      rw [htp]
      exact hp
    · intro h
      rw [Machine.returned, hf] at h
      cases h

theorem step_inv (hk : ∀ c, ktp c ≠ 0#32) (h : Step v ktp m m') (hi : Inv v ktp m) : Inv v ktp m' := by
  cases h with
  | user hr h =>
    obtain ⟨-, hsc, hst, hm, hp⟩ := hi.user hr
    refine ⟨hi.kstack, hi.wedged, ?_, fun _ => ⟨h, hsc, hst, hm, hp⟩⟩
    intro hr'
    cases hr.symm.trans hr'
  | trap hs _ => exact trapped_inv hk hs _ _ _ hi
  | irq b hr =>
    refine ⟨hi.kstack, hi.wedged, hi.kernel, ?_⟩
    intro hr'
    cases hr.symm.trans hr'
  | write hr hc hf hf' htp =>
    refine ⟨stack_update hi.kstack ?_, hi.wedged, hi.kernel, ?_⟩
    · exact Stack.write (hc ▸ hi.kstack _) hf' htp
    · intro hr'
      cases hr.symm.trans hr'
  | start hr hc hf htp =>
    refine ⟨stack_update hi.kstack (.user hf htp), hi.wedged, hi.kernel, ?_⟩
    intro hr'
    cases hr.symm.trans hr'
  | exit hr hc =>
    refine ⟨stack_update hi.kstack .empty, hi.wedged, hi.kernel, ?_⟩
    intro hr'
    cases hr.symm.trans hr'
  | switch c b hr =>
    obtain ⟨-, hsc, hp⟩ := hi.kernel hr
    refine ⟨hi.kstack, hi.wedged, fun _ => ⟨rfl, hsc, hp⟩, ?_⟩
    intro hr'
    cases hr.symm.trans hr'
  | ret hr hs => exact returned_inv hr hs hi

theorem reachable_inv (hk : ∀ c, ktp c ≠ 0#32) (h : Reachable v ktp m) : Inv v ktp m := by
  induction h with
  | boot =>
    refine ⟨fun _ => .empty, rfl, fun _ => ⟨rfl, rfl, rfl⟩, ?_⟩
    intro h
    cases h
  | step _ hs ih => exact step_inv hk hs ih

/-- **Told apart, and back as it was**: in every state that is reached the trap on top is the user's if and only if
    `user_mode` says so; the return from a trap goes to whom it came from; the kernel has its interrupts as they were,
    and is in M-mode; and no `mret` goes for a vector table. -/
theorem returns_right (hk : ∀ c, ktp c ≠ 0#32) (h : Reachable v ktp m) {f : Frame} {fs : List Frame}
    (hr : m.running = .kernel) (hs : m.kstack m.cur = f :: fs) :
    (userMode f m.tp = true ↔ f.came = .user) ∧ (m.returned v f fs).wedged = false ∧
      (f.came = .kernel → (m.returned v f fs).mie = f.mie ∧ (m.returned v f fs).priv = 3#2) := by
  have hi := reachable_inv hk h
  obtain ⟨htp, -, -⟩ := hi.kernel hr
  have hstack := hi.kstack m.cur
  rw [hs] at hstack
  refine ⟨?_, minhv_exit v f m.tp, ?_⟩
  · cases hstack with
    | user hf hne => simp [userMode, htp, hne, hf]
    | kernel hf heq _ _ _ => simp [userMode, htp, heq, hf]
  · intro hf'
    cases hstack with
    | user hf _ => cases hf.symm.trans hf'
    | kernel _ _ hmie hp _ =>
      unfold Machine.returned
      rw [htp]
      exact ⟨hmie, hp⟩

theorem next_ne (a : BitVec 32) : a + 1#32 ≠ a := by
  intro h
  have hnat := congrArg BitVec.toNat h
  rw [BitVec.toNat_add] at hnat
  change (a.toNat + 1) % 2 ^ 32 = a.toNat at hnat
  omega

/-- What the kernel may leave of a user's registers: its saved status has no interrupt enable and no privilege. -/
def cleared (tp : BitVec 32) : Frame := ⟨0#32, 0#32, tp, .user, false⟩

/-- A first process, on its way to its first instruction. -/
def ready (ktp : Nat → BitVec 32) : Machine :=
  { boot ktp with kstack := Function.update (boot ktp).kstack 0 [cleared (ktp 0 + 1#32)] }

theorem ready_reachable (v : Version) (ktp : Nat → BitVec 32) : Reachable v ktp (ready ktp) :=
  Reachable.step .boot (.start (c := 0) (f := cleared (ktp 0 + 1#32)) rfl rfl rfl (next_ne (ktp 0)))

/-- And there. -/
def entered (v : Version) (ktp : Nat → BitVec 32) : Machine :=
  (ready ktp).returned v (cleared (ktp 0 + 1#32)) []

theorem entered_reachable (v : Version) (ktp : Nat → BitVec 32) : Reachable v ktp (entered v ktp) :=
  (ready_reachable v ktp).step (.ret rfl rfl)

theorem returns_right_ready : (userMode (cleared 5#32) 4#32 = true ↔ (cleared 5#32).came = .user) ∧
    ((ready fun _ => 4#32).returned .machineMode (cleared 5#32) []).wedged = false ∧
    ((cleared 5#32).came = .kernel →
      ((ready fun _ => 4#32).returned .machineMode (cleared 5#32) []).mie = (cleared 5#32).mie ∧
      ((ready fun _ => 4#32).returned .machineMode (cleared 5#32) []).priv = 3#2) :=
  returns_right (fun _ => by decide) (ready_reachable .machineMode fun _ => 4#32) rfl rfl

/-- **The user can be interrupted** in every state that is reached, but for the baseline. -/
theorem user_interrupts_iff (hk : ∀ c, ktp c ≠ 0#32) (v : Version) :
    (∀ m, Reachable v ktp m → m.running = .user → m.mie = true) ↔ v ≠ .baseline := by
  constructor
  · intro h hv
    subst hv
    have hon := h _ (entered_reachable .baseline ktp) rfl
    have hne := next_ne (ktp 0)
    simp [entered, ready, Machine.returned, cleared, exitCause, boot, mpie, hne] at hon
  · intro hv m h hr
    exact ((reachable_inv hk h).user hr).2.2.2.1 hv

/-- The first process, entered with a saved status that has the interrupts off. -/
theorem user_interrupts_four : (entered .forceMpie fun _ => 4#32).running = .user ∧
    (entered .forceMpie fun _ => 4#32).mie = true :=
  ⟨rfl, (user_interrupts_iff (fun _ => by decide) .forceMpie).mpr (by decide) _
    (entered_reachable .forceMpie fun _ => 4#32) rfl⟩

/-- **The core stays in M-mode** in every state that is reached, with patch 0031 only. -/
theorem always_machine_iff (hk : ∀ c, ktp c ≠ 0#32) (v : Version) :
    (∀ m, Reachable v ktp m → m.priv = 3#2) ↔ v = .machineMode := by
  constructor
  · intro h
    have hpriv := h _ (entered_reachable v ktp)
    have hne := next_ne (ktp 0)
    cases v with
    | machineMode => rfl
    | baseline =>
      have hlow := congrArg (·.getLsbD 0) hpriv
      simp [entered, ready, Machine.returned, cleared, exitCause, boot, mpp, hne] at hlow
    | forceMpie =>
      have hlow := congrArg (·.getLsbD 0) hpriv
      simp [entered, ready, Machine.returned, cleared, exitCause, boot, mpp, hne] at hlow
  · intro hv m h
    have hi := reachable_inv hk h
    cases hr : m.running with
    | user => exact (hi.user hr).2.2.2.2 hv
    | kernel => exact (hi.kernel hr).2.2

/-- The same process, entered with a saved status that has no privilege. -/
theorem always_machine_four : (entered .machineMode fun _ => 4#32).running = .user ∧
    (entered .machineMode fun _ => 4#32).priv = 3#2 :=
  ⟨rfl, (always_machine_iff (fun _ => by decide) .machineMode).mpr rfl _
    (entered_reachable .machineMode fun _ => 4#32)⟩

end Invariant

end P4Linux.Kernel.Trap
