import P4Linux.Lib.Hierarchy

/-!
# Cache maintenance for DMA and for new code

`drivers/cache/esp32p4_cache.c` and `local_flush_icache_*`, as patch 0001 brings them in and as patch 0015 changes
them. A maintenance function is the ROM thunks it calls, a thunk an event of each line it is given, and the caches
do what they like in between.

* `to_device` -- what the CPU stored is what the device reads;
* `from_device_iff` -- what the device wrote is what the CPU reads, and that takes **patch 0015's order** of the two
  invalidates;
* `alias_coherent` -- patch 0039's memory is **the same for CPU and device** with no maintenance at all, once it has
  been written back and invalidated; `alias_flush_iff` -- of the two it is the write-back that this takes;
* `icache_range` -- new code in a range is what is executed;
* `icache_all_iff` -- and of the whole memory, with no store lost that is made meanwhile, which takes **patch 0015
  again**: the invalidate of the whole L2 loses stores.
-/

namespace P4Linux.Kernel

open Hierarchy

variable {α : Type*}

/-! ## 1. The thunks -/

def mapL1I : Nat := 0x03
def mapL1D : Nat := 0x10
def mapL2 : Nat := 0x20

inductive Thunk where
  | writeback (map addr size : Nat)
  | invalidate (map addr size : Nat)
  | writebackAll (map : Nat)
  | invalidateAll (map : Nat)
  deriving DecidableEq, Repr

/-- The 64-byte lines of a range. -/
def linesOf (addr size : Nat) : List Nat :=
  if size = 0 then [] else List.range' (addr / 64) ((addr + size - 1) / 64 - addr / 64 + 1)

theorem nodup_linesOf (addr size : Nat) : (linesOf addr size).Nodup := by
  unfold linesOf
  split
  · exact List.nodup_nil
  · exact List.nodup_range'

def writebackEv (map : Nat) : List (Ev α) :=
  if map = mapL1D then [.writebackD] else if map = mapL2 then [.writebackL2] else []

def invalidateEv (map : Nat) : List (Ev α) :=
  if map = mapL1I then [.dropI] else if map = mapL1D then [.dropD] else if map = mapL2 then [.dropL2] else []

def each (ls : List Nat) (es : List (Ev α)) : List (Nat × Ev α) := es.flatMap fun e => ls.map (·, e)

/-- `window` are the lines of the memory behind the caches. -/
def Thunk.events (window : List Nat) : Thunk → List (Nat × Ev α)
  | .writeback map addr size => each (linesOf addr size) (writebackEv map)
  | .invalidate map addr size => each (linesOf addr size) (invalidateEv map)
  | .writebackAll map => each window (writebackEv map)
  | .invalidateAll map => each window (invalidateEv map)

def program (window : List Nat) (ts : List Thunk) : List (Nat × Ev α) := ts.flatMap (Thunk.events window)

/-! ## 2. The functions -/

/-- Patch 0001, and with patch 0015 on top of it. -/
inductive Version where
  | baseline | hardened
  deriving DecidableEq, Repr

/-- `esp32p4_dma_cache_wback`. -/
def dmaCacheWback (paddr size : Nat) : List Thunk :=
  [.writeback mapL1D paddr size, .writeback mapL2 paddr size]

/-- `esp32p4_dma_cache_inv`. -/
def dmaCacheInv : Version → Nat → Nat → List Thunk
  | .baseline, paddr, size => [.invalidate mapL1D paddr size, .invalidate mapL2 paddr size]
  | .hardened, paddr, size => [.invalidate mapL2 paddr size, .invalidate mapL1D paddr size]

/-- `esp32p4_dma_cache_wback_inv`. -/
def dmaCacheWbackInv (v : Version) (paddr size : Nat) : List Thunk :=
  dmaCacheWback paddr size ++ dmaCacheInv v paddr size

/-- `local_flush_icache_all`. -/
def localFlushIcacheAll : Version → List Thunk
  | .baseline => [.writebackAll mapL1D, .writebackAll mapL2, .invalidateAll mapL1I, .invalidateAll mapL2]
  | .hardened => [.writebackAll mapL1D, .writebackAll mapL2, .invalidateAll mapL1I]

/-- `local_flush_icache_range` up to the `#endif`: the baseline calls `local_flush_icache_all` after it. -/
def localFlushIcacheRange (v : Version) (start stop : Nat) : List Thunk :=
  [.writeback mapL1D start (stop - start), .writeback mapL2 start (stop - start),
    .invalidate mapL1I start (stop - start), .invalidate mapL2 start (stop - start)] ++
  match v with
  | .baseline => localFlushIcacheAll .baseline
  | .hardened => []

/-! ## 3. A line of the range -/

/-- On the lines `ls` nothing is at work but `prog`, and the caches. -/
def Only (ls : List Nat) (prog es : List (Nat × Ev α)) : Prop := ∀ x ∈ ls, work (at' x es) = at' x prog

section At

variable {window ls : List Nat} {x : Nat}

theorem at_each (hnd : ls.Nodup) (x : Nat) (es : List (Ev α)) : at' x (each ls es) = if x ∈ ls then es else [] := by
  induction es with
  | nil => simp [each, at']
  | cons e es ih =>
    have hcons : each ls (e :: es) = ls.map (·, e) ++ each ls es := rfl
    rw [hcons, at_append, ih, at_region e hnd]
    by_cases hx : x ∈ ls <;> simp [hx]

variable {paddr size : Nat}

theorem at_wback (hx : x ∈ linesOf paddr size) :
    at' x (program (α := α) window (dmaCacheWback paddr size)) = [.writebackD, .writebackL2] := by
  simp only [program, dmaCacheWback, List.flatMap_cons, List.flatMap_nil, at_append, Thunk.events,
    at_each (nodup_linesOf paddr size), if_pos hx]
  rfl

theorem at_inv (hx : x ∈ linesOf paddr size) (v : Version) :
    at' x (program (α := α) window (dmaCacheInv v paddr size)) =
      match v with
      | .baseline => [.dropD, .dropL2]
      | .hardened => [.dropL2, .dropD] := by
  cases v <;>
    simp only [program, dmaCacheInv, List.flatMap_cons, List.flatMap_nil, at_append, Thunk.events,
      at_each (nodup_linesOf paddr size), if_pos hx] <;>
    rfl

end At

/-! ## 4. DMA -/

section Dma

variable {window : List Nat} {paddr size : Nat} {s : Nat → Line α} {es : List (Nat × Ev α)}

/-- **To the device**: after `wback` the memory has what the CPU reads, in every line of the buffer and for every
    schedule of the caches; it still has it when the device comes to read. -/
theorem to_device (hs : ∀ x, Agree (s x))
    (h : Only (linesOf paddr size) (program window (dmaCacheWback paddr size)) es) :
    ∀ x ∈ linesOf paddr size, (system s es x).ram = (s x).reads := by
  intro x hx
  have hw := (h x hx).trans (at_wback hx)
  obtain ⟨s', es', e, hw', hset⟩ := run_writeback (hs x) hw
  rw [system_at, e]
  exact (run_nil (fun _ _ => settled_step) hw' hset).2.2

/-- Every line dirty in the data cache. -/
def dirty : Nat → Line Bool := fun _ => ⟨none, some (true, true), none, false⟩

theorem agree_dirty (x : Nat) : Agree (dirty x) :=
  ⟨(fun v hv => by cases hv), (fun v hv => by cases hv)⟩

theorem to_device_dirty : (system dirty [(0, .writebackD), (0, .evictD), (0, .writebackL2)] 0).ram = true := by
  have h : Only (linesOf 0 64) (program [] (dmaCacheWback 0 64))
      [(0, (.writebackD : Ev Bool)), (0, .evictD), (0, .writebackL2)] := by
    intro x hx
    obtain rfl : x = 0 := by simpa [linesOf] using hx
    rfl
  exact to_device agree_dirty h 0 (by decide)

/-- What the device writes, line by line. -/
def deviceWrites (ws : List (Nat × α)) : List (Nat × Ev α) := ws.map fun w => (w.1, .dma w.2)

/-- What the device has left in line `x`; `u` if it has not written there. -/
def lastWrite (ws : List (Nat × α)) (x : Nat) (u : α) : α := ((ws.filter (·.1 = x)).map Prod.snd).getLastD u

theorem at_deviceWrites (ws : List (Nat × α)) (x : Nat) :
    at' x (deviceWrites ws) = ((ws.filter (·.1 = x)).map Prod.snd).map Ev.dma := by
  simp [at', deviceWrites, List.filter_map, Function.comp_def]

/-- The life of a buffer the device fills: written back, filled, invalidated. -/
def fromDevice (v : Version) (window : List Nat) (paddr size : Nat) (ws : List (Nat × α)) : List (Nat × Ev α) :=
  program window (dmaCacheWback paddr size) ++ deviceWrites ws ++ program window (dmaCacheInv v paddr size)

/-- The CPU reads what the device wrote, in every line of the buffer and for every schedule of the caches. -/
def ReadsDevice (α : Type*) (v : Version) : Prop :=
  ∀ (window : List Nat) (paddr size : Nat) (ws : List (Nat × α)) (s : Nat → Line α) (es : List (Nat × Ev α)),
    (∀ x, Agree (s x)) → Only (linesOf paddr size) (fromDevice v window paddr size ws) es →
    ∀ x ∈ linesOf paddr size, (system s es x).reads = lastWrite ws x (s x).reads

theorem readsDevice_hardened : ReadsDevice α .hardened := by
  intro window paddr size ws s es hs h x hx
  have hw := h x hx
  rw [fromDevice, at_append, at_append, at_wback hx, at_deviceWrites, at_inv hx, List.append_assoc] at hw
  obtain ⟨s₁, es₁, e₁, hw₁, h₁⟩ := run_writeback (hs x) hw
  obtain ⟨s₂, es₂, e₂, hw₂, h₂⟩ := run_dma _ (idle_of_settled h₁) hw₁
  rw [system_at, e₁, e₂]
  exact (run_drop h₂ hw₂).reads

/-- The refill in between: the data cache is emptied, takes the stale line out of L2 again, and keeps it. -/
theorem not_readsDevice_baseline [Nontrivial α] : ¬ ReadsDevice α .baseline := by
  obtain ⟨u, v, huv⟩ := exists_pair_ne α
  intro hall
  have h := hall [] 0 64 [(0, v)] (fun _ => ⟨none, some (u, false), some (u, false), u⟩)
    [(0, .writebackD), (0, .writebackL2), (0, .dma v), (0, .dropD), (0, .fillD), (0, .dropL2)]
    (fun x => ⟨fun w hw => by cases hw; rfl, fun w hw => by cases hw; rfl⟩)
    (fun x hx => by
      obtain rfl : x = 0 := by simpa [linesOf] using hx
      rfl) 0 (by decide)
  exact huv h

/-- **From the device**: patch 0015's order of the invalidates is the one that works, and the baseline's is not. -/
theorem from_device_iff [Nontrivial α] (v : Version) : ReadsDevice α v ↔ v = .hardened := by
  cases v with
  | baseline => exact ⟨fun h => absurd h not_readsDevice_baseline, fun h => by cases h⟩
  | hardened => exact ⟨fun _ => rfl, fun _ => readsDevice_hardened⟩

/-- The data cache takes the stale line out of L2 again, as above, and gives it up when it is told to. -/
theorem from_device_bool : (system dirty [(0, .writebackD), (0, .writebackL2), (0, .evictD), (0, .dma false),
    (0, .dropL2), (0, .fillL2), (0, .fillD), (0, .dropD)] 0).reads = lastWrite [(0, false)] 0 true := by
  have h : Only (linesOf 0 64) (fromDevice .hardened [] 0 64 [(0, false)]) [(0, (.writebackD : Ev Bool)),
      (0, .writebackL2), (0, .evictD), (0, .dma false), (0, .dropL2), (0, .fillL2), (0, .fillD), (0, .dropD)] := by
    intro x hx
    obtain rfl : x = 0 := by simpa [linesOf] using hx
    rfl
  exact (from_device_iff .hardened).2 rfl [] 0 64 _ dirty _ agree_dirty h 0 (by decide)

/-! ### Through the non-cacheable alias

`arch_dma_set_uncached` of patch 0039: the CPU goes to the memory behind the caches, as the device does, once
`arch_dma_prep_coherent` has written the buffer back and invalidated it. -/

/-- Two drops, in either order, leave nothing dirty. -/
theorem run_drops {t : Line α} {u : α} {l p : List (Ev α)} {a b : Ev α} (ha : a = .dropD ∨ a = .dropL2)
    (hb : b = .dropD ∨ b = .dropL2) (ht : Idle u t) (h : work l = a :: b :: p) :
    ∃ t' l', run t l = run t' l' ∧ work l' = p ∧ Idle u t' := by
  have hdrop : ∀ e : Ev α, e = .dropD ∨ e = .dropL2 → ∀ t, Idle u t → Idle u (step t e) := by
    rintro e (rfl | rfl) t ⟨hd, hl, hr⟩
    · exact ⟨(fun _ hp => by cases hp), hl, hr⟩
    · exact ⟨hd, (fun _ hp => by cases hp), hr⟩
  obtain ⟨t₁, l₁, e₁, hw₁, h₁⟩ := run_cons (fun _ _ => idle_step) (hdrop a ha) h ht
  obtain ⟨t₂, l₂, e₂, hw₂, h₂⟩ := run_cons (fun _ _ => idle_step) (hdrop b hb) hw₁ h₁
  exact ⟨t₂, l₂, e₁.trans e₂, hw₂, h₂⟩

/-- A flush that writes back, or invalidates, or both (`esp32p4_dma_cache_wback_inv`), or neither. -/
def flush (v : Version) (writes drops : Bool) (paddr size : Nat) : List Thunk :=
  (if writes then dmaCacheWback paddr size else []) ++ if drops then dmaCacheInv v paddr size else []

example (v : Version) (paddr size : Nat) : flush v true true paddr size = dmaCacheWbackInv v paddr size := rfl

/-- Behind a flush `prep` whoever wrote last through the alias or by DMA, that is what both read there, or else what
    the CPU read before: in every line of the buffer and for every schedule of the caches. -/
def AliasCoherent (α : Type*) (prep : Nat → Nat → List Thunk) : Prop :=
  ∀ (window : List Nat) (paddr size : Nat) (ws : List (Nat × α)) (s : Nat → Line α) (es : List (Nat × Ev α)),
    (∀ x, Agree (s x)) → Only (linesOf paddr size) (program window (prep paddr size) ++ deviceWrites ws) es →
    ∀ x ∈ linesOf paddr size, (system s es x).ram = lastWrite ws x (s x).reads

/-- Dropped or not: what was written back is in memory, and no cache will write over it. -/
theorem aliasCoherent_writes (v : Version) (drops : Bool) : AliasCoherent α (flush v true drops) := by
  intro window paddr size ws s es hs h x hx
  have hw := h x hx
  have hprog : program (α := α) window (flush v true drops paddr size) = program window (dmaCacheWback paddr size) ++
      program window (if drops then dmaCacheInv v paddr size else []) := List.flatMap_append
  rw [hprog, at_append, at_append, at_wback hx, at_deviceWrites, List.append_assoc] at hw
  obtain ⟨s₁, es₁, e₁, hw₁, h₁⟩ := run_writeback (hs x) hw
  have hidle : ∃ s₂ es₂, run s₁ es₁ = run s₂ es₂ ∧ work es₂ = ((ws.filter (·.1 = x)).map Prod.snd).map Ev.dma ∧
      Idle (s x).reads s₂ := by
    cases drops with
    | false => exact ⟨s₁, es₁, rfl, hw₁, idle_of_settled h₁⟩
    | true =>
      rw [if_pos rfl, at_inv hx] at hw₁
      cases v with
      | baseline => exact run_drops (.inl rfl) (.inr rfl) (idle_of_settled h₁) hw₁
      | hardened => exact run_drops (.inr rfl) (.inl rfl) (idle_of_settled h₁) hw₁
  obtain ⟨s₂, es₂, e₂, hw₂, h₂⟩ := hidle
  obtain ⟨s₃, es₃, e₃, hw₃, h₃⟩ := run_dma (p := []) _ h₂ (by rw [hw₂, List.append_nil])
  rw [system_at, e₁, e₂, e₃]
  exact (run_nil (fun _ _ => idle_step) hw₃ h₃).2.2

/-- **Coherent**: whoever wrote last through the alias or by DMA, that is what both read there, whatever the caches
    hold and do meanwhile. -/
theorem alias_coherent (v : Version) {ws : List (Nat × α)} (hs : ∀ x, Agree (s x))
    (h : Only (linesOf paddr size) (program window (dmaCacheWbackInv v paddr size) ++ deviceWrites ws) es) :
    ∀ x ∈ linesOf paddr size, (system s es x).ram = lastWrite ws x (s x).reads :=
  aliasCoherent_writes v true window paddr size ws s es hs h

theorem alias_coherent_dirty : (system dirty [(0, .writebackD), (0, .writebackL2), (0, .dropL2), (0, .dropD),
    (0, .fillD), (0, .dma false)] 0).ram = lastWrite [(0, false)] 0 true := by
  have h : Only (linesOf 0 64) (program [] (dmaCacheWbackInv .hardened 0 64) ++ deviceWrites [(0, false)])
      [(0, (.writebackD : Ev Bool)), (0, .writebackL2), (0, .dropL2), (0, .dropD), (0, .fillD), (0, .dma false)] := by
    intro x hx
    obtain rfl : x = 0 := by simpa [linesOf] using hx
    rfl
  exact alias_coherent .hardened agree_dirty h 0 (by decide)

/-- A line that is dirty in the data cache: without the write-back the memory does not get it. -/
theorem not_aliasCoherent [Nontrivial α] (v : Version) (drops : Bool) : ¬ AliasCoherent α (flush v false drops) := by
  obtain ⟨u, w, huw⟩ := exists_pair_ne α
  intro hall
  have h := hall [] 0 64 [] (fun _ => ⟨none, some (u, true), none, w⟩) (program [] (flush v false drops 0 64))
    (fun x => ⟨(fun _ hd => by cases hd), (fun _ hl => by cases hl)⟩)
    (fun x hx => by
      obtain rfl : x = 0 := by simpa [linesOf] using hx
      cases v <;> cases drops <;> rfl) 0 (by decide)
  refine huw (Eq.trans ?_ h).symm
  cases v <;> cases drops <;> rfl

end Dma

/-! ## 5. Code -/

section Code

variable {window : List Nat} {start stop : Nat} {s : Nat → Line α} {es : List (Nat × Ev α)}

theorem at_icacheRange {x : Nat} (hx : x ∈ linesOf start (stop - start)) :
    at' x (program (α := α) window (localFlushIcacheRange .hardened start stop)) =
      [.writebackD, .writebackL2, .dropI, .dropL2] := by
  simp only [program, localFlushIcacheRange, List.append_nil, List.flatMap_cons, List.flatMap_nil, at_append,
    Thunk.events, at_each (nodup_linesOf start (stop - start)), if_pos hx]
  rfl

theorem at_icacheAll (hnd : window.Nodup) (x : Nat) :
    at' x (program (α := α) window (localFlushIcacheAll .hardened)) =
      if x ∈ window then [.writebackD, .writebackL2, .dropI] else [] := by
  simp only [program, localFlushIcacheAll, List.flatMap_cons, List.flatMap_nil, at_append, Thunk.events,
    at_each hnd]
  by_cases hx : x ∈ window <;> simp [hx, writebackEv, invalidateEv, mapL1D, mapL2, mapL1I]

/-- In memory, and in the instruction cache if it is there at all. -/
def SettledCode (v : α) (s : Line α) : Prop := Settled v s ∧ CodeOf v s

theorem settledCode_step {v : α} {s : Line α} {e : Ev α} (he : e.free = true) (h : SettledCode v s) :
    SettledCode v (step s e) :=
  ⟨settled_step he h.1, codeOf_step he h.1.below h.2⟩

/-- What is left after the writebacks and the invalidate of the instruction cache. -/
theorem run_code {s : Line α} {es p : List (Ev α)} (ha : Agree s)
    (h : work es = .writebackD :: .writebackL2 :: .dropI :: p) :
    ∃ s' es', run s es = run s' es' ∧ work es' = p ∧ SettledCode s.reads s' := by
  obtain ⟨s₁, es₁, e₁, hw₁, h₁⟩ := run_writeback ha h
  obtain ⟨s₂, es₂, e₂, hw₂, h₂⟩ := run_cons (J := SettledCode s.reads) (fun _ _ => settled_step)
    (fun t ht => ⟨⟨ht.1, ht.2.1, ht.2.2⟩, fun c hc => by cases hc⟩) hw₁ h₁
  exact ⟨s₂, es₂, e₁.trans e₂, hw₂, h₂⟩

/-- **New code in a range is what is executed** there, and it is still what is read: dropping the range from L2
    loses nothing, because it has just been written back. -/
theorem icache_range (hs : ∀ x, Agree (s x))
    (h : Only (linesOf start (stop - start)) (program window (localFlushIcacheRange .hardened start stop)) es) :
    ∀ x ∈ linesOf start (stop - start),
      (system s es x).fetches = (s x).reads ∧ (system s es x).reads = (s x).reads := by
  intro x hx
  obtain ⟨s₁, es₁, e₁, hw₁, h₁⟩ := run_code (hs x) ((h x hx).trans (at_icacheRange hx))
  obtain ⟨s₂, es₂, e₂, hw₂, h₂⟩ := run_cons (J := SettledCode (s x).reads) (fun _ _ => settledCode_step)
    (fun t ht => ⟨settled_dropL2 ht.1, ht.2⟩) hw₁ h₁
  have hend := run_nil (fun _ _ => settledCode_step) hw₂ h₂
  rw [system_at, e₁, e₂]
  exact ⟨hend.2.fetches hend.1.below, hend.1.reads⟩

theorem icache_range_dirty :
    (system dirty [(0, .writebackD), (0, .writebackL2), (0, .fillI), (0, .dropI), (0, .dropL2)] 0).fetches = true ∧
    (system dirty [(0, .writebackD), (0, .writebackL2), (0, .fillI), (0, .dropI), (0, .dropL2)] 0).reads = true := by
  have h : Only (linesOf 0 64) (program [] (localFlushIcacheRange .hardened 0 64))
      [(0, (.writebackD : Ev Bool)), (0, .writebackL2), (0, .fillI), (0, .dropI), (0, .dropL2)] := by
    intro x hx
    obtain rfl : x = 0 := by simpa [linesOf] using hx
    rfl
  exact icache_range agree_dirty h 0 (by decide)

def Ev.isStore : Ev α → Bool
  | .store _ => true
  | _ => false

/-- What is asked of a line beside stores. -/
def upkeep (es : List (Ev α)) : List (Ev α) := es.filter fun e => !e.free && !Ev.isStore e

/-- While the whole memory is maintained the CPU stores where it likes -- its own stack, say. No store is lost,
    and where none is made the code that is executed is the code that was written. -/
def FlushesAll (α : Type*) (v : Version) : Prop :=
  ∀ (window : List Nat) (s : Nat → Line α) (es : List (Nat × Ev α)), window.Nodup → (∀ x, Agree (s x)) →
    (∀ x, upkeep (at' x es) = at' x (program window (localFlushIcacheAll v))) →
    (∀ x, (system s es x).reads = (at' x es).foldl Ev.leaves (s x).reads) ∧
      ∀ x ∈ window, (∀ e ∈ at' x es, Ev.isStore e = false) → (system s es x).fetches = (s x).reads

theorem flushesAll_hardened : FlushesAll α .hardened := by
  intro window s es hnd hs h
  have hup := fun x => (h x).trans (at_icacheAll hnd x)
  refine ⟨fun x => ?_, fun x hx hno => ?_⟩
  · rw [system_at]
    refine (run_quiet (fun e he => ?_) (hs x)).2
    by_cases hfree : e.free = true
    · exact quiet_of_free hfree
    by_cases hstore : Ev.isStore e = true
    · cases e <;> first | rfl | cases hstore
    have hmem : e ∈ upkeep (at' x es) := by
      simp only [upkeep, List.mem_filter, Bool.and_eq_true, Bool.not_eq_true', Bool.not_eq_true] at *
      exact ⟨he, hfree, hstore⟩
    rw [hup x] at hmem
    split at hmem
    · simp only [List.mem_cons, List.not_mem_nil, or_false] at hmem
      obtain rfl | rfl | rfl := hmem <;> rfl
    · cases hmem
  · have hwork : work (at' x es) = [.writebackD, .writebackL2, .dropI] := by
      have hsame : work (at' x es) = upkeep (at' x es) := by
        refine List.filter_congr fun e he => ?_
        rw [hno e he]
        simp
      rw [hsame, hup x, if_pos hx]
    obtain ⟨s₁, es₁, e₁, hw₁, h₁⟩ := run_code (hs x) hwork
    have hend := run_nil (fun _ _ => settledCode_step) hw₁ h₁
    rw [system_at, e₁]
    exact hend.2.fetches hend.1.below

/-- A store after the writeback of L2 that is evicted into L2 before L2 is invalidated. -/
theorem not_flushesAll_baseline [Nontrivial α] : ¬ FlushesAll α .baseline := by
  obtain ⟨u, v, huv⟩ := exists_pair_ne α
  intro hall
  have h := (hall [0] (fun _ => ⟨none, none, none, u⟩)
    [(0, .writebackD), (0, .writebackL2), (0, .store v), (0, .evictD), (0, .dropI), (0, .dropL2)]
    (by decide) (fun x => ⟨(fun w hw => by cases hw), (fun w hw => by cases hw)⟩)
    (fun x => by
      by_cases hx : x = 0
      · subst hx
        rfl
      · simp only [program, localFlushIcacheAll, List.flatMap_cons, List.flatMap_nil, at_append, at_nil,
          Thunk.events, at_each (by decide : ([0] : List Nat).Nodup), List.mem_singleton, if_neg hx]
        simp [at', upkeep, Ne.symm hx])).1 0
  exact huv h

/-- **Code for the whole memory**: with patch 0015 no store is lost and the code is what was written, without it
    that is false. -/
theorem icache_all_iff [Nontrivial α] (v : Version) : FlushesAll α v ↔ v = .hardened := by
  cases v with
  | baseline => exact ⟨fun h => absurd h not_flushesAll_baseline, fun h => by cases h⟩
  | hardened => exact ⟨fun _ => rfl, fun _ => flushesAll_hardened⟩

/-- A store to line 1 while line 0 is flushed: it is kept, and line 0 is what is fetched. -/
theorem icache_all_bool : (system dirty [(0, .writebackD), (1, .writebackD), (1, .store false), (0, .writebackL2),
      (1, .writebackL2), (0, .fillI), (1, .evictD), (0, .dropI), (1, .dropI)] 1).reads = false ∧
    (system dirty [(0, .writebackD), (1, .writebackD), (1, .store false), (0, .writebackL2), (1, .writebackL2),
      (0, .fillI), (1, .evictD), (0, .dropI), (1, .dropI)] 0).fetches = true := by
  have h := (icache_all_iff .hardened).2 rfl [0, 1] dirty [(0, .writebackD), (1, .writebackD), (1, .store false),
    (0, .writebackL2), (1, .writebackL2), (0, .fillI), (1, .evictD), (0, .dropI), (1, .dropI)] (by decide) agree_dirty
    fun x => by
      rw [at_icacheAll (by decide)]
      by_cases h0 : x = 0
      · subst h0
        rfl
      · by_cases h1 : x = 1
        · subst h1
          rfl
        · simp [at', upkeep, Ne.symm h0, Ne.symm h1, h0, h1]
  exact ⟨h.1 1, h.2 0 (by decide) (by decide)⟩

end Code

end P4Linux.Kernel
