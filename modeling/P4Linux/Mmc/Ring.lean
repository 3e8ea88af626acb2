import P4Linux.Lib.Cache

/-!
# dw_mmc: the descriptor ring in cached memory

What patches 0007 and 0036 do to the ring, as the stores and the cache maintenance of each function. The chain
pointers that `dw_mci_idmac_init` stores and what `dw_mci_prepare_desc32` and `dw_mci_prepare_desc64` do with the
ring between the invalidate and their end are arguments: any loads and stores.

* `program_guarded` -- nothing is stored between a writeback of the ring and the next invalidate;
* `ring_kept` -- **no invalidate discards a store**, and IDMAC is started on what was stored, in every run.
-/

namespace P4Linux.Mmc

open Cache

/-! ## 1. The functions -/

abbrev RingOp := Op Nat Nat UInt32

/-- Cache lines are of 64 bytes. -/
def lineOf (a : Nat) : Nat := a / 64

structure Host where
  sgCpu : Nat
  sgDma : Nat
  sgCpuCached : Bool
  dma64bitAddress : Bool
  deriving DecidableEq, Repr

/-- A load or a store of a word. -/
inductive Access where
  | load (a : Nat)
  | store (a : Nat) (v : UInt32)
  deriving DecidableEq, Repr

def Access.op : Access → RingOp
  | .load a => .load a
  | .store a v => .store a v

def stores (words : List (Nat × UInt32)) : List RingOp := words.map fun p => .store p.1 p.2

section Driver

variable (descRingBufSz : Nat)

/-- The lines that have a byte of the ring. -/
def ringLine (host : Host) (l : Nat) : Bool := host.sgDma < 64 * (l + 1) && 64 * l < host.sgDma + descRingBufSz

/-- `memset(host->sg_cpu, 0, DESC_RING_BUF_SZ)`. -/
def clearRing (host : Host) : List RingOp :=
  (List.range (descRingBufSz / 4)).map fun i => .store (host.sgCpu + 4 * i) 0

def dwMciDescSyncForCpu (host : Host) : List RingOp := if host.sgCpuCached then [.drop] else []

def dwMciDescSyncForDevice (host : Host) : List RingOp := if host.sgCpuCached then [.writeback] else []

def dwMciIdmacInit (host : Host) (links : List (Nat × UInt32)) : List RingOp :=
  stores links ++ dwMciDescSyncForDevice host

/-- A pass over the ring: what it does there, and the chain pointers of the new initialisation if it ends in
    `err_own_bit`. -/
structure Pass where
  body : List Access
  errOwnBit : Option (List (Nat × UInt32))

/-- `-EINVAL`. -/
def einval : Int := -22

theorem einval_ne_zero : einval ≠ 0 := by decide

def dwMciPrepareDesc (host : Host) (pass : Pass) : Int × List RingOp :=
  let ops := dwMciDescSyncForCpu host ++ pass.body.map Access.op
  match pass.errOwnBit with
  | none => (0, ops)
  | some links => (einval, ops ++ clearRing descRingBufSz host ++ dwMciIdmacInit host links)

def dwMciPrepareDesc64 (host : Host) (pass : Pass) : Int × List RingOp := dwMciPrepareDesc descRingBufSz host pass

def dwMciPrepareDesc32 (host : Host) (pass : Pass) : Int × List RingOp := dwMciPrepareDesc descRingBufSz host pass

def dwMciIdmacStartDma (host : Host) (pass : Pass) : List RingOp :=
  let (ret, ops) :=
    if host.dma64bitAddress then dwMciPrepareDesc64 descRingBufSz host pass
    else dwMciPrepareDesc32 descRingBufSz host pass
  if ret ≠ 0 then ops
  -- the sync is not gated here, and then IDMAC is told to poll
  else ops ++ [.writeback, .signal]

/-- The allocation: what `dma_alloc_coherent` and then `devm_kzalloc` return. -/
def dwMciInitDma (host : Host) (coherent : Option (Nat × Nat)) (kzalloc : Option Nat) :
    Option (Host × List RingOp) :=
  match coherent, kzalloc with
  | some (cpu, dma), _ => some ({ host with sgCpu := cpu, sgDma := dma }, [])
  | none, some cpu =>
    let host := { host with sgCpu := cpu, sgDma := cpu, sgCpuCached := true }
    some (host, clearRing descRingBufSz host)
  | none, none => none

inductive Step where
  | idmacInit (links : List (Nat × UInt32))
  | startDma (pass : Pass)

def Step.ops (host : Host) : Step → List RingOp
  | .idmacInit links => dwMciIdmacInit host links
  | .startDma pass => dwMciIdmacStartDma descRingBufSz host pass

/-- What is done to the ring from its allocation on. -/
def program (host : Host) (alloc : List RingOp) (links : List (Nat × UInt32)) (steps : List Step) : List RingOp :=
  alloc ++ dwMciIdmacInit host links ++ steps.flatMap (Step.ops descRingBufSz host)

/-! ## 2. Every run -/

/-- Loads and stores are no invalidate. -/
theorem guarded_append {ops ops' : List RingOp} (hops : ∀ op ∈ ops, op.guarded = false) {clean : Bool}
    (h : ∀ clean, Guarded clean ops') : Guarded clean (ops ++ ops') := by
  induction ops generalizing clean with
  | nil => exact h clean
  | cons op ops ih =>
    exact ⟨fun hg => absurd hg (by rw [hops op List.mem_cons_self]; exact Bool.false_ne_true),
      ih fun op' hop' => hops op' (List.mem_cons_of_mem _ hop')⟩

theorem stores_guarded (words : List (Nat × UInt32)) : ∀ op ∈ stores words, op.guarded = false := by
  intro op hop
  obtain ⟨_, -, rfl⟩ := List.mem_map.mp hop
  rfl

theorem body_guarded (body : List Access) : ∀ op ∈ body.map Access.op, op.guarded = false := by
  intro op hop
  obtain ⟨access, -, rfl⟩ := List.mem_map.mp hop
  cases access <;> rfl

theorem clearRing_guarded (host : Host) : ∀ op ∈ clearRing descRingBufSz host, op.guarded = false := by
  intro op hop
  obtain ⟨_, -, rfl⟩ := List.mem_map.mp hop
  rfl

/-- **A transfer**: the two ends of a pass. -/
theorem dwMciIdmacStartDma_eq (host : Host) (pass : Pass) : dwMciIdmacStartDma descRingBufSz host pass =
    dwMciDescSyncForCpu host ++ (pass.body.map Access.op ++ match pass.errOwnBit with
      | none => [.writeback, .signal]
      | some links => clearRing descRingBufSz host ++ dwMciIdmacInit host links) := by
  obtain ⟨body, err⟩ := pass
  unfold dwMciIdmacStartDma dwMciPrepareDesc64 dwMciPrepareDesc32
  rw [ite_self]
  cases err with
  | none => exact List.append_assoc ..
  | some links =>
    show _ ++ _ ++ _ ++ _ = _
    simp only [List.append_assoc]

variable {host : Host} (hcached : host.sgCpuCached = true)
include hcached

/-- An initialisation leaves the ring clean, whatever it was before. -/
theorem init_guarded (links : List (Nat × UInt32)) {clean : Bool} {rest : List RingOp} (h : Guarded true rest) :
    Guarded clean (dwMciIdmacInit host links ++ rest) := by
  unfold dwMciIdmacInit dwMciDescSyncForDevice
  rw [if_pos hcached, List.append_assoc]
  exact guarded_append (stores_guarded links) fun _ => ⟨(fun hg => nomatch hg), h⟩

/-- **One step** finds the ring clean and leaves it clean. -/
theorem step_guarded (step : Step) {rest : List RingOp} (h : Guarded true rest) :
    Guarded true (step.ops descRingBufSz host ++ rest) := by
  cases step with
  | idmacInit links => exact init_guarded hcached links h
  | startDma pass =>
    show Guarded true (dwMciIdmacStartDma descRingBufSz host pass ++ rest)
    rw [dwMciIdmacStartDma_eq, dwMciDescSyncForCpu, if_pos hcached]
    simp only [List.append_assoc]
    refine ⟨fun _ => rfl, guarded_append (body_guarded pass.body) fun _ => ?_⟩
    cases pass.errOwnBit with
    | none => exact ⟨(fun hg => nomatch hg), fun _ => rfl, h⟩
    | some links =>
      simp only [List.append_assoc]
      exact guarded_append (clearRing_guarded descRingBufSz host) fun _ => init_guarded hcached links h

/-- By induction on the steps. -/
theorem steps_guarded (steps : List Step) : Guarded true (steps.flatMap (Step.ops descRingBufSz host)) := by
  induction steps with
  | nil => trivial
  | cons step steps ih =>
    rw [List.flatMap_cons]
    exact step_guarded descRingBufSz hcached step ih

/-- **The program of the ring** drops it, and starts IDMAC, only when it has stored nothing since it wrote it
    back. -/
theorem program_guarded {alloc : List RingOp} (halloc : ∀ op ∈ alloc, op.guarded = false)
    (links : List (Nat × UInt32)) (steps : List Step) :
    Guarded false (program descRingBufSz host alloc links steps) := by
  unfold program
  rw [List.append_assoc]
  exact guarded_append halloc fun _ => init_guarded hcached links (steps_guarded descRingBufSz hcached steps)

omit hcached in
/-- The allocation only stores. -/
theorem initDma_guarded {host₀ : Host} {coherent : Option (Nat × Nat)} {kzalloc : Option Nat} {alloc : List RingOp}
    (h : dwMciInitDma descRingBufSz host₀ coherent kzalloc = some (host, alloc)) :
    ∀ op ∈ alloc, op.guarded = false := by
  unfold dwMciInitDma at h
  split at h
  · obtain ⟨rfl, rfl⟩ := Prod.mk.inj (Option.some.inj h)
    exact fun op hop => absurd hop List.not_mem_nil
  · obtain ⟨rfl, rfl⟩ := Prod.mk.inj (Option.some.inj h)
    exact clearRing_guarded descRingBufSz _
  · cases h

/-- **In every run** of the program, whatever lines the cache fetches and gives up and whatever IDMAC writes in
    between: no line of the ring is dirty when it is invalidated, and when IDMAC is started each word of the ring
    has in memory what was stored to it last, unless IDMAC has written it since. -/
theorem ring_kept {host₀ : Host} {coherent : Option (Nat × Nat)} {kzalloc : Option Nat} {alloc : List RingOp}
    (halloc : dwMciInitDma descRingBufSz host₀ coherent kzalloc = some (host, alloc))
    (links : List (Nat × UInt32)) (steps : List Step) {t : List RingOp}
    (ht : t.filter Op.cpu = program descRingBufSz host alloc links steps) (s : State Nat Nat UInt32)
    {pre post : List RingOp} {op : RingOp} (hsplit : t = pre ++ op :: post) :
    (op = .drop → ∀ l, ringLine descRingBufSz host l = true →
      ¬(exec lineOf (ringLine descRingBufSz host) pre s).Dirty l) ∧
    (op = .signal → ∀ a v, ringLine descRingBufSz host (lineOf a) = true → lastStore pre a = some v →
      (exec lineOf (ringLine descRingBufSz host) pre s).mem a = v) := by
  have hguarded : Guarded false (t.filter Op.cpu) := by
    rw [ht]
    exact program_guarded descRingBufSz hcached (initDma_guarded descRingBufSz halloc) links steps
  have hkept : Kept lineOf (ringLine descRingBufSz host) s fun _ => none := fun _ _ _ hv => nomatch hv
  constructor
  · intro hdrop
    subst hdrop
    exact (hguarded.sound (fun hc => nomatch hc) hkept hsplit rfl).1
  · intro hsignal a v hr hv
    subst hsignal
    obtain ⟨hclean, hk⟩ := hguarded.sound (fun hc => nomatch hc) hkept hsplit rfl
    exact (hk a v hr hv).2 (hclean _ hr)

end Driver

/-- A ring of one descriptor, and a transfer: the line is given up while it is dirty, and fetched again. -/
def oneTransfer : List RingOp :=
  [.store 128 0, .store 132 0, .evict 2, .store 136 0, .store 140 0, .store 140 128, .fill 2, .writeback, .drop,
    .put 128 1, .load 128, .store 128 7, .evict 2, .put 132 9, .fill 2, .writeback]

theorem ring_kept_one : (exec lineOf (ringLine 16 ⟨128, 128, true, false⟩) oneTransfer
    ⟨fun _ => 0, fun _ => none⟩).mem 128 = 7 := by
  have halloc : dwMciInitDma 16 ⟨0, 0, false, false⟩ none (some 128) =
    some (⟨128, 128, true, false⟩, [.store 128 0, .store 132 0, .store 136 0, .store 140 0]) := rfl
  have hprogram : (oneTransfer ++ [Op.signal]).filter Op.cpu = program 16 ⟨128, 128, true, false⟩
    [.store 128 0, .store 132 0, .store 136 0, .store 140 0] [(140, 128)]
    [.startDma ⟨[.load 128, .store 128 7], none⟩] := rfl
  exact (ring_kept 16 rfl halloc _ _ hprogram _ rfl).2 rfl 128 7 rfl rfl

end P4Linux.Mmc
