import Mathlib.Data.Set.List
import P4Linux.Lib.Outcome
import P4Linux.Mmc.Ring

/-!
# dw_mmc: the poll of the OWN bit

The loop of `dw_mci_prepare_desc32`, against everything that the cache and IDMAC do while it runs. How many
descriptors there are and what is stored to a descriptor after its poll are data of the transfer.

* `poll_held` -- a poll ends with what the line of its descriptor has;
* `Transfer.prepare_pass` -- the loop is a pass over the ring, as its invalidates and writebacks see it;
* `prepareDesc32_iff` -- **it succeeds** if and only if each line is fetched when the OWN bit is clear in memory.
-/

namespace P4Linux.Mmc

open Cache

/-! ## 1. The loop -/

/-- A request, and what happens while it is prepared: `events k` is what the cache and IDMAC do before the `k`-th
    load of a poll, or store to a descriptor. -/
structure Transfer (descRingBufSz : Nat) (host : Host) where
  /-- `IDMAC_OWN_CLR64` is the negation -/
  own : UInt32 → Bool
  count : Nat
  des0 : Nat → Nat
  /-- after the poll of a descriptor -/
  fields : Nat → State Nat Nat UInt32 → List Access
  /-- the loads that a poll has time for -/
  reads : Nat → Nat
  events : Nat → List RingOp
  ring : ∀ i, i < count → ringLine descRingBufSz host (lineOf (des0 i)) = true
  fields_later : ∀ i j s v, i < j → .store (des0 j) v ∉ fields i s
  reads_pos : ∀ i, 0 < reads i
  events_quiet : ∀ k, ∀ op ∈ events k, op.cpu = false
  /-- IDMAC gives descriptors up, and takes none -/
  events_clear : ∀ k i v, .put (des0 i) v ∈ events k → own v = false

variable {descRingBufSz : Nat} {host : Host}

namespace Transfer

variable (t : Transfer descRingBufSz host)

/-- What a trace does to the ring. -/
def run (_ : Transfer descRingBufSz host) (ops : List RingOp) (s : State Nat Nat UInt32) : State Nat Nat UInt32 :=
  exec lineOf (ringLine descRingBufSz host) ops s

/-- `readl_poll_timeout_atomic(&desc->des0, ..)` with time for so many loads: whether OWN was seen clear, the time,
    and the trace. -/
def poll (a : Nat) : Nat → Nat → State Nat Nat UInt32 → Bool × Nat × List RingOp
  | 0, tick, _ => (false, tick, [])
  | k + 1, tick, s =>
    let ops := t.events tick ++ [.load a]
    if t.own ((t.run (t.events tick) s).value lineOf a) then
      let (clear, tick, rest) := poll a k (tick + 1) (t.run ops s)
      (clear, tick, ops ++ rest)
    else (true, tick + 1, ops)

/-- The loop over the first `i` descriptors, on the ring as the invalidate leaves it: the time and the trace, or
    the trace up to `goto err_own_bit`. -/
def descs (s : State Nat Nat UInt32) : Nat → Except (List RingOp) (Nat × List RingOp)
  | 0 => .ok (0, [])
  | i + 1 => do
    let (tick, trace) ← descs s i
    let (clear, tick, ops) := t.poll (t.des0 i) (t.reads i) tick (t.run trace s)
    if clear then
      let trace := trace ++ ops ++ t.events tick
      pure (tick + 1, trace ++ (t.fields i (t.run trace s)).map Access.op)
    else .error (trace ++ ops)

def dwMciPrepareDesc32 (links : List (Nat × UInt32)) (s : State Nat Nat UInt32) : Int × List RingOp :=
  match t.descs (t.run (dwMciDescSyncForCpu host) s) t.count with
  | .ok (_, trace) => (0, dwMciDescSyncForCpu host ++ trace)
  | .error trace =>
    (einval, dwMciDescSyncForCpu host ++ trace ++ clearRing descRingBufSz host ++ dwMciIdmacInit host links)

end Transfer

/-! ## 2. A poll -/

variable {t : Transfer descRingBufSz host}

/-- A load returns what the line then has. -/
theorem load_held (s : State Nat Nat UInt32) (a : Nat) :
    (t.run [.load a] s).copy (lineOf a) = some (s.held (lineOf a)) :=
  Function.update_self ..

theorem run_append (ops ops' : List RingOp) (s : State Nat Nat UInt32) :
    t.run (ops ++ ops') s = t.run ops' (t.run ops s) :=
  exec_append ..

/-- **A poll ends** with OWN in its line as it saw it: induction on the loads it has time for. -/
theorem poll_held {a k tick : Nat} (hk : 0 < k) (s : State Nat Nat UInt32) :
    ∃ c, (t.run (t.poll a k tick s).2.2 s).copy (lineOf a) = some c ∧
      t.own (c.word a) = !(t.poll a k tick s).1 := by
  induction k generalizing tick s with
  | zero => exact absurd hk (Nat.lt_irrefl 0)
  | succ k ih =>
    unfold Transfer.poll
    dsimp only
    have hload := load_held (t := t) (t.run (t.events tick) s) a
    rw [← run_append] at hload
    split
    · rename_i hown
      dsimp only
      rw [run_append]
      rcases Nat.eq_zero_or_pos k with rfl | hk
      · exact ⟨_, hload, hown⟩
      · exact ih hk _
    · rename_i hown
      exact ⟨_, hload, Bool.eq_false_iff.mpr hown⟩

/-- A poll does nothing but load. -/
theorem poll_mem {a k tick : Nat} {s : State Nat Nat UInt32} {op : RingOp} (h : op ∈ (t.poll a k tick s).2.2) :
    op = .load a ∨ ∃ j, op ∈ t.events j := by
  induction k generalizing tick s with
  | zero => exact absurd h List.not_mem_nil
  | succ k ih =>
    have hops : op ∈ t.events tick ++ [.load a] → op = .load a ∨ ∃ j, op ∈ t.events j := by
      intro h
      rcases List.mem_append.mp h with h | h
      · exact .inr ⟨tick, h⟩
      · exact .inl (List.mem_singleton.mp h)
    unfold Transfer.poll at h
    dsimp only at h
    split at h
    · rcases List.mem_append.mp h with h | h
      · exact hops h
      · exact ih h
    · exact hops h

/-! ## 3. The loop -/

theorem descs_succ {s : State Nat Nat UInt32} {i : Nat} {r : Nat × List RingOp} :
    t.descs s (i + 1) = .ok r ↔ ∃ tick trace, t.descs s i = .ok (tick, trace) ∧
      (t.poll (t.des0 i) (t.reads i) tick (t.run trace s)).1 = true ∧
      r = ((t.poll (t.des0 i) (t.reads i) tick (t.run trace s)).2.1 + 1,
        trace ++ (t.poll (t.des0 i) (t.reads i) tick (t.run trace s)).2.2 ++
          t.events (t.poll (t.des0 i) (t.reads i) tick (t.run trace s)).2.1 ++
          (t.fields i (t.run (trace ++ (t.poll (t.des0 i) (t.reads i) tick (t.run trace s)).2.2 ++
            t.events (t.poll (t.des0 i) (t.reads i) tick (t.run trace s)).2.1) s)).map Access.op) := by
  have heq : t.descs s (i + 1) = (do
      let (tick, trace) ← t.descs s i
      let (clear, tick, ops) := t.poll (t.des0 i) (t.reads i) tick (t.run trace s)
      if clear then
        let trace := trace ++ ops ++ t.events tick
        pure (tick + 1, trace ++ (t.fields i (t.run trace s)).map Access.op)
      else .error (trace ++ ops)) := rfl
  rw [heq]
  constructor
  · intro h
    obtain ⟨⟨tick, trace⟩, hdescs, h⟩ := bind_ok.mp h
    dsimp only at h
    split at h
    · rename_i hclear
      exact ⟨tick, trace, hdescs, hclear, (pure_ok.mp h).symm⟩
    · cases h
  · intro hround
    obtain ⟨tick, trace, hdescs, hclear, rfl⟩ := hround
    refine bind_ok.mpr ⟨(tick, trace), hdescs, ?_⟩
    dsimp only
    rw [if_pos hclear]
    rfl

/-- **The loop comes through** if and only if every poll that is reached sees OWN clear. -/
theorem descs_ok_iff {s : State Nat Nat UInt32} {n : Nat} : (∃ r, t.descs s n = .ok r) ↔
    ∀ i tick trace, i < n → t.descs s i = .ok (tick, trace) →
      (t.poll (t.des0 i) (t.reads i) tick (t.run trace s)).1 = true := by
  induction n with
  | zero => exact ⟨fun _ i _ _ hi => absurd hi (Nat.not_lt_zero i), fun _ => ⟨_, rfl⟩⟩
  | succ n ih =>
    constructor
    · intro hok i tick trace hi hdescs
      obtain ⟨r, hr⟩ := hok
      obtain ⟨tick', trace', hdescs', hclear, -⟩ := descs_succ.mp hr
      rcases Nat.lt_succ_iff_lt_or_eq.mp hi with hlt | rfl
      · exact ih.mp ⟨_, hdescs'⟩ i tick trace hlt hdescs
      · obtain ⟨rfl, rfl⟩ := Prod.mk.inj (Except.ok.inj (hdescs'.symm.trans hdescs))
        exact hclear
    · intro h
      obtain ⟨⟨tick, trace⟩, hdescs⟩ := ih.mpr fun i tick trace hi => h i tick trace (Nat.lt_succ_of_lt hi)
      exact ⟨_, descs_succ.mpr ⟨tick, trace, hdescs, h n tick trace (Nat.lt_succ_self n) hdescs, rfl⟩⟩

/-- What the loop does to the ring, of the first `i` descriptors. -/
theorem descs_mem {s : State Nat Nat UInt32} {i tick : Nat} {trace : List RingOp}
    (h : t.descs s i = .ok (tick, trace)) {op : RingOp} (hop : op ∈ trace) :
    (∃ a, op = .load a) ∨ (∃ j, op ∈ t.events j) ∨ ∃ j s', j < i ∧ op ∈ (t.fields j s').map Access.op := by
  induction i generalizing tick trace with
  | zero =>
    obtain ⟨-, rfl⟩ := Prod.mk.inj (Except.ok.inj h)
    exact absurd hop List.not_mem_nil
  | succ i ih =>
    obtain ⟨tick', trace', hdescs, -, heq⟩ := descs_succ.mp h
    obtain ⟨-, rfl⟩ := Prod.mk.inj heq
    rcases List.mem_append.mp hop with hop | hop
    · rcases List.mem_append.mp hop with hop | hop
      · rcases List.mem_append.mp hop with hop | hop
        · rcases ih hdescs hop with hload | hevent | ⟨j, s', hj, hfield⟩
          · exact .inl hload
          · exact .inr (.inl hevent)
          · exact .inr (.inr ⟨j, s', Nat.lt_succ_of_lt hj, hfield⟩)
        · rcases poll_mem hop with hload | hevent
          · exact .inl ⟨_, hload⟩
          · exact .inr (.inl hevent)
      · exact .inr (.inl ⟨_, hop⟩)
    · exact .inr (.inr ⟨i, _, Nat.lt_succ_self i, hop⟩)

/-- Until the poll of a descriptor ends nothing is stored to its `des0`, and IDMAC only clears OWN there. -/
theorem descs_des0 {s : State Nat Nat UInt32} {i tick : Nat} {trace : List RingOp}
    (h : t.descs s i = .ok (tick, trace)) {op : RingOp}
    (hop : op ∈ trace ++ (t.poll (t.des0 i) (t.reads i) tick (t.run trace s)).2.2) :
    (∀ v, op ≠ .store (t.des0 i) v) ∧ ∀ v, op = .put (t.des0 i) v → t.own v = false := by
  have hmem : (∃ a, op = .load a) ∨ (∃ j, op ∈ t.events j) ∨ ∃ j s', j < i ∧ op ∈ (t.fields j s').map Access.op := by
    rcases List.mem_append.mp hop with hop | hop
    · exact descs_mem h hop
    · rcases poll_mem hop with hload | hevent
      · exact .inl ⟨_, hload⟩
      · exact .inr (.inl hevent)
  rcases hmem with ⟨a, rfl⟩ | ⟨j, hevent⟩ | ⟨j, s', hj, hfield⟩
  · exact ⟨(fun v h => nomatch h), fun v h => nomatch h⟩
  · constructor
    · intro v heq
      subst heq
      exact absurd (t.events_quiet j _ hevent) (Bool.noConfusion ·)
    · intro v heq
      subst heq
      exact t.events_clear j i v hevent
  · obtain ⟨access, haccess, rfl⟩ := List.mem_map.mp hfield
    constructor
    · intro v heq
      cases access with
      | load a => cases heq
      | store a w =>
        obtain ⟨rfl, rfl⟩ := Op.store.inj heq
        exact t.fields_later j i s' w hj haccess
    · intro v heq
      cases access <;> cases heq

/-- IDMAC has given each descriptor up, in memory, before the last load that its poll has time for. -/
def Transfer.InTime (t : Transfer descRingBufSz host) (s : State Nat Nat UInt32) : Prop :=
  ∀ i tick trace, i < t.count → t.descs s i = .ok (tick, trace) →
    t.own (s.mem (t.des0 i)) = false ∨ ∃ k v, k < tick + t.reads i ∧ .put (t.des0 i) v ∈ t.events k

/-- Before the poll of a descriptor ends its line is fetched when OWN is clear in memory. -/
def Transfer.FetchedClear (t : Transfer descRingBufSz host) (s : State Nat Nat UInt32) (i : Nat) : Prop :=
  ∀ tick trace, t.descs s i = .ok (tick, trace) →
    Fetches lineOf (ringLine descRingBufSz host)
      (trace ++ (t.poll (t.des0 i) (t.reads i) tick (t.run trace s)).2.2) s (t.des0 i) fun v => t.own v = false

/-- **A poll sees OWN clear** if and only if its line was fetched when it was clear. -/
theorem poll_clear_iff {s : State Nat Nat UInt32} {i tick : Nat} {trace : List RingOp}
    (hs : s.copy (lineOf (t.des0 i)) = none) (h : t.descs s i = .ok (tick, trace)) :
    (t.poll (t.des0 i) (t.reads i) tick (t.run trace s)).1 = true ↔
      Fetches lineOf (ringLine descRingBufSz host)
        (trace ++ (t.poll (t.des0 i) (t.reads i) tick (t.run trace s)).2.2) s (t.des0 i) fun v => t.own v = false := by
  obtain ⟨c, hc, hown⟩ : ∃ c,
      (t.run (t.poll (t.des0 i) (t.reads i) tick (t.run trace s)).2.2 (t.run trace s)).copy (lineOf (t.des0 i)) =
        some c ∧ t.own (c.word (t.des0 i)) = !(t.poll (t.des0 i) (t.reads i) tick (t.run trace s)).1 :=
    poll_held (t.reads_pos i) (t.run trace s)
  rw [← run_append] at hc
  rw [← held_iff_fetches hs (fun v hv => (descs_des0 h hv).1 v rfl) (fun v hv => (descs_des0 h hv).2 v rfl) hc, hown,
    Bool.not_eq_false']

/-- **The function succeeds** if and only if the line of every descriptor is fetched, after the invalidate and
    before the poll of the descriptor ends, when its OWN is clear in memory. -/
theorem prepareDesc32_iff (hcached : host.sgCpuCached = true) (t : Transfer descRingBufSz host)
    (links : List (Nat × UInt32)) (s : State Nat Nat UInt32) : (t.dwMciPrepareDesc32 links s).1 = 0 ↔
      ∀ i, i < t.count → t.FetchedClear (t.run (dwMciDescSyncForCpu host) s) i := by
  have hnone : ∀ i, i < t.count → (t.run (dwMciDescSyncForCpu host) s).copy (lineOf (t.des0 i)) = none := by
    intro i hi
    unfold dwMciDescSyncForCpu
    rw [if_pos hcached]
    exact if_pos (t.ring i hi)
  have hret : (t.dwMciPrepareDesc32 links s).1 = 0 ↔
      ∃ r, t.descs (t.run (dwMciDescSyncForCpu host) s) t.count = .ok r := by
    unfold Transfer.dwMciPrepareDesc32
    cases hdescs : t.descs (t.run (dwMciDescSyncForCpu host) s) t.count with
    | ok r => exact ⟨fun _ => ⟨r, rfl⟩, fun _ => rfl⟩
    | error trace => exact ⟨fun h => absurd h einval_ne_zero, fun ⟨r, h⟩ => nomatch h⟩
  rw [hret, descs_ok_iff]
  constructor
  · intro h i hi tick trace hdescs
    exact (poll_clear_iff (hnone i hi) hdescs).mp (h i tick trace hi hdescs)
  · intro h i tick trace hi hdescs
    exact (poll_clear_iff (hnone i hi) hdescs).mpr (h i hi tick trace hdescs)

/-- One descriptor that IDMAC gives up before the `n`-th of the two loads that its poll has time for. -/
def givenUp (n : Nat) : Transfer 64 ⟨128, 128, true, false⟩ where
  own v := 0x80000000 ≤ v
  count := 1
  des0 i := 128 + 16 * i
  fields i _ := [.store (128 + 16 * i) 0x80000000]
  reads _ := 2
  events k := if k = n then [.put 128 0] else []
  ring i hi := by
    obtain rfl := Nat.lt_one_iff.mp hi
    decide
  fields_later i j s v hij h := by
    obtain ⟨ha, -⟩ := Access.store.inj (List.mem_singleton.mp h)
    omega
  reads_pos _ := Nat.two_pos
  events_quiet k op hop := by
    split at hop
    · obtain rfl := List.mem_singleton.mp hop
      rfl
    · exact absurd hop List.not_mem_nil
  events_clear k i v h := by
    split at h
    · obtain ⟨-, rfl⟩ := Op.put.inj (List.mem_singleton.mp h)
      decide
    · exact absurd h List.not_mem_nil

/-- The memory and the cache before, with OWN set. -/
def owned : State Nat Nat UInt32 := ⟨fun _ => 0x80000000, fun _ => none⟩

theorem prepareDesc32_early : ((givenUp 0).dwMciPrepareDesc32 [] owned).1 = 0 := by
  refine (prepareDesc32_iff rfl (givenUp 0) [] owned).mpr fun i hi tick trace hdescs => ?_
  obtain rfl := Nat.lt_one_iff.mp hi
  obtain ⟨rfl, rfl⟩ := Prod.mk.inj (Except.ok.inj hdescs)
  exact ⟨[.put 128 0], .load 128, [], rfl, rfl, rfl, by decide⟩

/-- Between the two loads the line stays as the first has fetched it. -/
theorem not_prepareDesc32 : ¬∀ (descRingBufSz : Nat) (host : Host) (t : Transfer descRingBufSz host)
    (links : List (Nat × UInt32)) (s : State Nat Nat UInt32), host.sgCpuCached = true →
      t.InTime (t.run (dwMciDescSyncForCpu host) s) → (t.dwMciPrepareDesc32 links s).1 = 0 := by
  intro h
  have hret : ((givenUp 1).dwMciPrepareDesc32 [] owned).1 = einval := by decide
  refine einval_ne_zero (hret.symm.trans (h _ _ (givenUp 1) [] owned rfl fun i tick trace hi hdescs => ?_))
  obtain rfl := Nat.lt_one_iff.mp hi
  obtain ⟨rfl, rfl⟩ := Prod.mk.inj (Except.ok.inj hdescs)
  exact .inr ⟨1, 0, by decide, List.mem_singleton.mpr rfl⟩

/-! ## 4. A pass over the ring -/

/-- The trace of the loop, wherever it ends. -/
def traceOf : Except (List RingOp) (Nat × List RingOp) → List RingOp
  | .ok r => r.2
  | .error trace => trace

/-- All that the loop does to the ring are loads and stores. -/
theorem descs_accesses {s : State Nat Nat UInt32} {i : Nat} {op : RingOp} (hop : op ∈ traceOf (t.descs s i))
    (hcpu : op.cpu = true) : ∃ access, Access.op access = op := by
  have hevents : ∀ {j}, op ∈ t.events j → ∃ access, Access.op access = op := by
    intro j hevent
    rw [t.events_quiet j op hevent] at hcpu
    cases hcpu
  induction i with
  | zero => exact absurd hop List.not_mem_nil
  | succ i ih =>
    cases hdescs : t.descs s i with
    | error trace =>
      rw [hdescs] at ih
      unfold Transfer.descs at hop
      rw [hdescs] at hop
      exact ih hop
    | ok r =>
      obtain ⟨tick, trace⟩ := r
      rw [hdescs] at ih
      have hpoll : op ∈ trace ++ (t.poll (t.des0 i) (t.reads i) tick (t.run trace s)).2.2 →
          ∃ access, Access.op access = op := by
        intro h
        rcases List.mem_append.mp h with h | h
        · exact ih h
        · rcases poll_mem h with rfl | ⟨j, hevent⟩
          · exact ⟨.load (t.des0 i), rfl⟩
          · exact hevents hevent
      have hsucc : t.descs s (i + 1) = (do
          let (clear, tick, ops) := t.poll (t.des0 i) (t.reads i) tick (t.run trace s)
          if clear then
            let trace := trace ++ ops ++ t.events tick
            pure (tick + 1, trace ++ (t.fields i (t.run trace s)).map Access.op)
          else .error (trace ++ ops)) := by
        rw [Transfer.descs, hdescs]
        rfl
      rw [hsucc] at hop
      dsimp only at hop
      split at hop
      · rcases List.mem_append.mp hop with hop | hop
        · rcases List.mem_append.mp hop with hop | hop
          · exact hpoll hop
          · exact hevents hop
        · obtain ⟨access, -, rfl⟩ := List.mem_map.mp hop
          exact ⟨access, rfl⟩
      · exact hpoll hop

theorem filter_accesses {trace : List RingOp}
    (h : ∀ op ∈ trace, op.cpu = true → ∃ access, Access.op access = op) :
    ∃ body : List Access, body.map Access.op = trace.filter Op.cpu := by
  have hrange : trace.filter Op.cpu ∈ Set.range (List.map Access.op) := by
    rw [Set.range_list_map]
    intro op hop
    obtain ⟨hmem, hcpu⟩ := List.mem_filter.mp hop
    exact h op hmem hcpu
  exact hrange

/-- The rest of the function is no event. -/
theorem filter_cpu_eq_self {ops : List RingOp} (h : ∀ op ∈ ops, op.cpu = true) : ops.filter Op.cpu = ops :=
  List.filter_eq_self.mpr h

theorem sync_cpu (host : Host) : ∀ op ∈ dwMciDescSyncForCpu host, op.cpu = true := by
  unfold dwMciDescSyncForCpu
  intro op hop
  split at hop
  · obtain rfl := List.mem_singleton.mp hop
    rfl
  · exact absurd hop List.not_mem_nil

theorem clear_init_cpu (host : Host) (links : List (Nat × UInt32)) :
    ∀ op ∈ clearRing descRingBufSz host ++ dwMciIdmacInit host links, op.cpu = true := by
  intro op hop
  rcases List.mem_append.mp hop with hop | hop
  · obtain ⟨_, -, rfl⟩ := List.mem_map.mp hop
    rfl
  · unfold dwMciIdmacInit dwMciDescSyncForDevice at hop
    rcases List.mem_append.mp hop with hop | hop
    · obtain ⟨_, -, rfl⟩ := List.mem_map.mp hop
      rfl
    · split at hop
      · obtain rfl := List.mem_singleton.mp hop
        rfl
      · exact absurd hop List.not_mem_nil

/-- **The function is a pass** over the ring, in every run of it. -/
theorem Transfer.prepare_pass (t : Transfer descRingBufSz host) (links : List (Nat × UInt32))
    (s : State Nat Nat UInt32) : ∃ pass : Pass,
      (t.dwMciPrepareDesc32 links s).1 = (Mmc.dwMciPrepareDesc32 descRingBufSz host pass).1 ∧
      (t.dwMciPrepareDesc32 links s).2.filter Op.cpu = (Mmc.dwMciPrepareDesc32 descRingBufSz host pass).2 := by
  obtain ⟨body, hbody⟩ : ∃ body : List Access, body.map Access.op =
      (traceOf (t.descs (t.run (dwMciDescSyncForCpu host) s) t.count)).filter Op.cpu :=
    filter_accesses fun op hop hcpu => descs_accesses hop hcpu
  have hsync := filter_cpu_eq_self (sync_cpu host)
  unfold Transfer.dwMciPrepareDesc32 Mmc.dwMciPrepareDesc32 dwMciPrepareDesc
  cases hdescs : t.descs (t.run (dwMciDescSyncForCpu host) s) t.count with
  | ok r =>
    rw [hdescs] at hbody
    refine ⟨⟨body, none⟩, rfl, ?_⟩
    dsimp only
    rw [List.filter_append, hsync, hbody]
    rfl
  | error trace =>
    rw [hdescs] at hbody
    refine ⟨⟨body, some links⟩, rfl, ?_⟩
    dsimp only
    rw [List.append_assoc, List.append_assoc, List.filter_append, List.filter_append, hsync,
      filter_cpu_eq_self (clear_init_cpu host links), hbody, List.append_assoc, List.append_assoc]
    rfl

end P4Linux.Mmc
