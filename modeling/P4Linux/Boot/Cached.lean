import Mathlib.Data.List.GetD
import P4Linux.Boot.Boots
import P4Linux.Lib.Cache

/-!
# The copy through the cache

`p4_flash_copy` with the stores that it makes and the two cache operations after them. Addresses have 32 bits and
wrap; what the cache does by itself comes in between at any moment.

* `flashCopyTraced_board` -- what the CPU sees is `flashCopy`;
* `flashCopy_written` -- **the data is in memory** when it returns, and what follows reads it from there.
-/

namespace P4Linux.Boot

open Proc

variable {ρ κ : Type}

/-! ## 1. The stores -/

abbrev CpuOp (κ : Type) := Cache.Op (BitVec 32) κ UInt8

abbrev Psram (κ : Type) := Cache.State (BitVec 32) κ UInt8

/-- The copy so far: what the CPU sees, what it has done, and what the reads that succeeded have delivered. -/
structure Traced (ρ κ : Type) where
  board : Board ρ
  ops : List (CpuOp κ)
  delivered : List UInt8

/-- What does nothing to the memory behind the cache. -/
def onBoard {α : Type} (x : Proc (Board ρ) α) : Proc (Traced ρ κ) α := fun w =>
  ((x w.board).1, { w with board := (x w.board).2 })

def byteAt (addr : Nat) : BitVec 32 := BitVec.ofNat 32 addr

/-- The bytes from `addr` on are stored. -/
def storesAt : Nat → List UInt8 → List (CpuOp κ)
  | _, [] => []
  | addr, v :: data => .store (byteAt addr) v :: storesAt (addr + 1) data

variable (rom : Rom ρ)

/-- `while (done < len)` of `p4_flash_copy`. -/
def copyLoopTraced (offset len dest : Nat) : Nat → Nat → Proc (Traced ρ κ) Bool
  | 0, _ => Proc.stuck
  | n + 1, done =>
    if done < len then do
      let want := wantOf len done
      let (ok, data) ← onBoard (flashRead rom (u32 (offset + done)) (dest + done) want)
      Proc.step fun w => ((), {
        board := w.board.store (dest + done) (data.take want)
        ops := w.ops ++ storesAt (dest + done) (data.take want)
        delivered := if ok then w.delivered ++ data.take want else w.delivered })
      if ok = false then pure false else copyLoopTraced offset len dest n (done + want)
    else pure true

/-- `p4_flash_copy`, down to `cache_hal_writeback_addr` and `cache_hal_invalidate_addr`. -/
def flashCopyTraced (offset len dest : Nat) : Proc (Traced ρ κ) Bool :=
  if dest % 4 ≠ 0 ∨ offset % 4 ≠ 0 then pure false
  else do
    if (← copyLoopTraced rom offset len dest (len / bufSize + 2) 0) = false then pure false
    else
      Proc.step fun w => ((), { w with ops := w.ops ++ [.writeback, .drop] })
      pure true

/-- The lines that intersect the range. -/
def linesOf [DecidableEq κ] (line : BitVec 32 → κ) (dest len : Nat) (l : κ) : Bool :=
  (List.range len).any fun i => decide (line (byteAt (dest + i)) = l)

/-- The loads of `p4_mem_crc32`. -/
def loadsAt (dest len : Nat) : List (CpuOp κ) := (List.range len).map fun i => .load (byteAt (dest + i))

/-! ## 2. What the CPU sees -/

section

variable {rom}

theorem follows_onBoard {α : Type} (x : Proc (Board ρ) α) :
    Follows Traced.board (onBoard x : Proc (Traced ρ κ) α) x := fun _ => rfl

theorem copyLoopTraced_board (offset len dest n done : Nat) :
    Follows Traced.board (copyLoopTraced rom offset len dest n done : Proc (Traced ρ κ) Bool)
      (copyLoop rom offset len dest n done) := by
  induction n generalizing done with
  | zero => exact follows_stuck
  | succ n ih =>
    refine follows_ite (follows_bind (follows_onBoard _) fun res => ?_) (follows_pure _)
    refine follows_bind (fun _ => rfl) fun _ => ?_
    exact follows_ite (follows_pure _) (ih _)

/-- **The copy as the CPU sees it** is `flashCopy`. -/
theorem flashCopyTraced_board (offset len dest : Nat) :
    Follows Traced.board (flashCopyTraced rom offset len dest : Proc (Traced ρ κ) Bool)
      (flashCopy rom offset len dest) := by
  refine follows_ite (follows_pure _) (follows_then (copyLoopTraced_board offset len dest _ 0) fun ok => ?_)
  cases ok with
  | false => exact follows_pure _
  | true => exact fun _ => rfl

/-! ## 3. What the CPU does -/

/-- A read that succeeds delivers what it was asked for. -/
def Rom.Fills (rom : Rom ρ) : Prop := ∀ chip offset len s, (rom.spiflashRead chip offset len s).1.1 = true →
  (rom.spiflashRead chip offset len s).1.2.length = len

theorem flashRead_length (hf : rom.Fills) {offset dest len : Nat} {b b' : Board ρ} {data : List UInt8}
    (h : Ends (flashRead rom offset dest len) b (true, data) b') : data.length = len := by
  unfold flashRead at h
  split at h
  · cases (ends_pure.mp h).1
  · obtain ⟨hr, -⟩ := Prod.mk.inj (ends_step.mp h)
    have hlen := hf b.chipSize offset len b.rom (by rw [hr])
    rw [hr] at hlen
    exact hlen

theorem storesAt_append (addr : Nat) (data data' : List UInt8) :
    (storesAt addr (data ++ data') : List (CpuOp κ)) = storesAt addr data ++ storesAt (addr + data.length) data' := by
  induction data generalizing addr with
  | nil => rfl
  | cons v data ih =>
    rw [List.cons_append, storesAt, storesAt, ih, List.length_cons, List.cons_append, Nat.add_assoc,
      Nat.add_comm 1]

theorem ends_onBoard {α : Type} {x : Proc (Board ρ) α} {w w' : Traced ρ κ} {a : α} :
    Ends (onBoard x) w a w' ↔ Ends x w.board a w'.board ∧ w'.ops = w.ops ∧ w'.delivered = w.delivered := by
  obtain ⟨b', ops', del'⟩ := w'
  unfold Ends onBoard
  constructor
  · intro h
    obtain ⟨h₁, h₂⟩ := Prod.mk.inj h
    obtain ⟨rfl, rfl, rfl⟩ := Traced.mk.inj h₂
    exact ⟨Prod.ext h₁ rfl, rfl, rfl⟩
  · rintro ⟨h, rfl, rfl⟩
    rw [h]

theorem mem_store_append (b : Board ρ) (addr : Nat) (data data' : List UInt8) :
    ((b.store addr data).store (addr + data.length) data').mem = (b.store addr (data ++ data')).mem := by
  funext a
  unfold Board.store
  dsimp only
  rw [List.length_append]
  by_cases h₁ : addr + data.length ≤ a ∧ a < addr + data.length + data'.length
  · rw [if_pos h₁, if_pos (by omega), List.getD_append_right _ _ _ _ (by omega)]
    congr 1
    omega
  · rw [if_neg h₁]
    by_cases h₂ : addr ≤ a ∧ a < addr + data.length
    · rw [if_pos h₂, if_pos (by omega), List.getD_append _ _ _ _ (by omega)]
    · rw [if_neg h₂, if_neg (by omega)]

/-- Each round delivers its part and stores it behind what was stored before. -/
theorem copyLoopTraced_ends (hf : rom.Fills) {offset len dest n done : Nat} {w w' : Traced ρ κ} (hd : done ≤ len)
    (h : Ends (copyLoopTraced rom offset len dest n done) w true w') : ∃ data : List UInt8,
      data.length = len - done ∧ w'.delivered = w.delivered ++ data ∧
      w'.ops = w.ops ++ storesAt (dest + done) data ∧ w'.board.mem = (w.board.store (dest + done) data).mem := by
  induction n generalizing done w with
  | zero => exact absurd h not_ends_stuck
  | succ n ih =>
    unfold copyLoopTraced at h
    split at h
    · obtain ⟨⟨ok, data⟩, t, hr, h⟩ := ends_bind.mp h
      obtain ⟨hread, hops, hdel⟩ := ends_onBoard.mp hr
      obtain ⟨_, t', hs, h⟩ := ends_bind.mp h
      obtain ⟨-, rfl⟩ := Prod.mk.inj (ends_step.mp hs)
      cases ok with
      | false => cases (ends_pure.mp h).1
      | true =>
        have hlen := flashRead_length hf hread
        have hle := wantOf_le len done
        have htake : data.take (wantOf len done) = data := List.take_of_length_le (Nat.le_of_eq hlen)
        have hmem : t.board.mem = w.board.mem := congrArg Prod.fst ((leaves_flashRead _ _ _).ends hread)
        obtain ⟨rest, hrest, hd', ho', hm'⟩ := ih (by omega) h
        refine ⟨data ++ rest, ?_, ?_, ?_, ?_⟩
        · rw [List.length_append]
          omega
        · rw [hd', if_pos rfl, htake, hdel, List.append_assoc]
        · rw [ho', htake, hops, storesAt_append, List.append_assoc, hlen, Nat.add_assoc dest]
        · rw [hm', htake, ← Nat.add_assoc dest, ← hlen]
          refine (mem_store_append t.board _ data rest).trans ?_
          unfold Board.store
          rw [hmem]
    · obtain ⟨-, rfl⟩ := ends_pure.mp h
      have hdone : len - done = 0 := by omega
      refine ⟨[], hdone.symm, (List.append_nil _).symm, (List.append_nil _).symm, ?_⟩
      funext a
      exact (mem_store w.board (by simp; omega)).symm

theorem flashCopyTraced_ends (hf : rom.Fills) {offset len dest : Nat} {b : Board ρ} {w : Traced ρ κ}
    (h : Ends (flashCopyTraced rom offset len dest) ⟨b, [], []⟩ true w) :
    w.delivered.length = len ∧ w.ops = storesAt dest w.delivered ++ [.writeback, .drop] ∧
      w.board.mem = (b.store dest w.delivered).mem := by
  unfold flashCopyTraced at h
  split at h
  · cases (ends_pure.mp h).1
  · obtain ⟨ok, t, hloop, h⟩ := ends_bind.mp h
    cases ok with
    | false => cases (ends_pure.mp h).1
    | true =>
      obtain ⟨_, t', hs, h⟩ := ends_bind.mp h
      obtain ⟨-, rfl⟩ := Prod.mk.inj (ends_step.mp hs)
      obtain ⟨-, rfl⟩ := ends_pure.mp h
      obtain ⟨data, hlen, hdel, hops, hmem⟩ := copyLoopTraced_ends hf (Nat.zero_le _) hloop
      rw [List.nil_append] at hdel hops
      refine ⟨by rw [hdel]; exact hlen, by rw [hops, hdel]; rfl, ?_⟩
      rw [hdel]
      exact hmem

/-! ## 4. What is in memory then -/

theorem byteAt_inj {addr i j : Nat} (hi : i < 2 ^ 32) (hj : j < 2 ^ 32)
    (h : byteAt (addr + i) = byteAt (addr + j)) : i = j := by
  have hnat := congrArg BitVec.toNat h
  unfold byteAt at hnat
  rw [BitVec.toNat_ofNat, BitVec.toNat_ofNat] at hnat
  omega

theorem note_storesAt_other {addr : Nat} {data : List UInt8} {last : BitVec 32 → Option UInt8} {a : BitVec 32}
    (h : ∀ i < data.length, byteAt (addr + i) ≠ a) :
    (storesAt addr data : List (CpuOp κ)).foldl Cache.note last a = last a := by
  induction data generalizing addr last with
  | nil => rfl
  | cons v data ih =>
    have hfirst := h 0 (Nat.succ_pos _)
    rw [storesAt, List.foldl_cons, ih fun i hi => ?_]
    · exact Function.update_of_ne hfirst.symm ..
    · have hnext := h (i + 1) (Nat.succ_lt_succ hi)
      rwa [Nat.add_comm i, ← Nat.add_assoc] at hnext

theorem note_storesAt {addr : Nat} {data : List UInt8} {last : BitVec 32 → Option UInt8}
    (hlen : data.length < 2 ^ 32) {i : Nat} (hi : i < data.length) :
    (storesAt addr data : List (CpuOp κ)).foldl Cache.note last (byteAt (addr + i)) = some (data.getD i 0) := by
  induction data generalizing addr last i with
  | nil => exact absurd hi (Nat.not_lt_zero i)
  | cons v data ih =>
    rw [List.length_cons] at hlen hi
    rw [storesAt, List.foldl_cons]
    cases i with
    | zero =>
      rw [note_storesAt_other fun j hj h => ?_]
      · exact Function.update_self ..
      · rw [Nat.add_assoc] at h
        have hzero := byteAt_inj (by omega) (by omega) h
        omega
    | succ i =>
      have haddr : addr + (i + 1) = addr + 1 + i := by omega
      rw [haddr]
      exact ih (by omega) (Nat.lt_of_succ_lt_succ hi)

theorem guarded_storesAt (clean : Bool) (addr : Nat) (data : List UInt8) :
    Cache.Guarded clean (storesAt addr data ++ [.writeback, .drop] : List (CpuOp κ)) := by
  induction data generalizing clean addr with
  | nil => exact ⟨fun h => (nomatch h), fun _ => rfl, trivial⟩
  | cons v data ih => exact ⟨fun h => (nomatch h), ih _ _⟩

section

variable [DecidableEq κ] {line : BitVec 32 → κ} {dest len : Nat}

theorem linesOf_byteAt {i : Nat} (hi : i < len) : linesOf line dest len (line (byteAt (dest + i))) = true :=
  List.any_eq_true.mpr ⟨i, List.mem_range.mpr hi, decide_eq_true rfl⟩

omit [DecidableEq κ] in
/-- A trace of the copy, cut where the lines of the range are dropped. -/
theorem cut_trace {data : List UInt8} {t : List (CpuOp κ)}
    (ht : t.filter Cache.Op.cpu = storesAt dest data ++ [.writeback, .drop]) :
    ∃ pre post, t = pre ++ .drop :: post ∧ post.filter Cache.Op.cpu = [] := by
  have happend : storesAt dest data ++ [.writeback, .drop] =
      (storesAt dest data ++ [.writeback] : List (CpuOp κ)) ++ [.drop] := by simp
  rw [happend] at ht
  obtain ⟨t₁, t₂, rfl, -, ht₂⟩ := List.filter_eq_append_iff.mp ht
  obtain ⟨l₁, l₂, rfl, -, -, hpost⟩ := List.filter_eq_cons_iff.mp ht₂
  exact ⟨t₁ ++ l₁, l₂, (List.append_assoc ..).symm, hpost⟩

/-- What the copy owes to what runs after it, of a trace `t` that begins at `s`. -/
structure Written (rom : Rom ρ) (line : BitVec 32 → κ) (dest len : Nat) (delivered : List UInt8)
    (t : List (CpuOp κ)) (s : Psram κ) : Prop where
  length : delivered.length = len
  mem : ∀ i < len, (Cache.exec line (linesOf line dest len) t s).mem (byteAt (dest + i)) = delivered.getD i 0
  clean : ∀ l, linesOf line dest len l = true → ¬(Cache.exec line (linesOf line dest len) t s).Dirty l
  view : ∀ i < len, (Cache.exec line (linesOf line dest len) t s).value line (byteAt (dest + i)) =
    delivered.getD i 0
  rest : ∀ a, (∀ i < len, byteAt (dest + i) ≠ a) → s.Coherent line a →
    (Cache.exec line (linesOf line dest len) t s).value line a = s.value line a
  /-- Whatever memory has from the invalidation on, `p4_mem_crc32` computes the CRC of that. -/
  check : ∃ pre post, t = pre ++ .drop :: post ∧ ∀ (m : BitVec 32 → UInt8) (t' : List (CpuOp κ)),
    t'.filter Cache.Op.cpu = loadsAt dest len → (∀ a v, .put a v ∉ t') →
      rom.crc32le 0 (Cache.loaded line (linesOf line dest len) (post ++ t')
        { Cache.exec line (linesOf line dest len) (pre ++ [.drop]) s with mem := m }) =
      rom.crc32le 0 ((List.range len).map fun i => m (byteAt (dest + i)))

/-- After the invalidation no line of the range is held, so what is loaded is what memory has. -/
theorem loaded_mem {s : Psram κ} {m : BitVec 32 → UInt8} {post t' : List (CpuOp κ)}
    (hpost : post.filter Cache.Op.cpu = []) (hput : ∀ a v, .put a v ∉ post)
    (ht' : t'.filter Cache.Op.cpu = loadsAt dest len) (hput' : ∀ a v, .put a v ∉ t') :
    Cache.loaded line (linesOf line dest len) (post ++ t') { s.drop (linesOf line dest len) with mem := m } =
      (List.range len).map fun i => m (byteAt (dest + i)) := by
  have hkept : Cache.Kept line (linesOf line dest len) { s.drop (linesOf line dest len) with mem := m }
      fun a => some (m a) := by
    intro a v hl hv
    obtain rfl := Option.some.inj hv
    refine ⟨fun c hc => ?_, fun _ => rfl⟩
    have hnone : (s.drop (linesOf line dest len)).copy (line a) = none := if_pos hl
    rw [show (s.drop (linesOf line dest len)).copy (line a) = some c from hc] at hnone
    cases hnone
  have hcpu : (post ++ t').filter Cache.Op.cpu = loadsAt dest len := by
    rw [List.filter_append, hpost, ht', List.nil_append]
  have hin : ∀ op ∈ post ++ t', op.cpu = true → ∃ i < len, op = .load (byteAt (dest + i)) := by
    intro op hop hc
    have hmem := List.mem_filter.mpr ⟨hop, hc⟩
    rw [hcpu] at hmem
    obtain ⟨i, hi, rfl⟩ := List.mem_map.mp hmem
    exact ⟨i, List.mem_range.mp hi, rfl⟩
  rw [Cache.loaded_eq hkept (v := m), Cache.loads_filter, hcpu, loadsAt, List.filterMap_map, List.map_filterMap]
  · exact congrFun (List.filterMap_eq_map (f := fun i => m (byteAt (dest + i)))) _
  · intro op hop
    cases op with
    | fill l => exact ⟨fun h => (nomatch h), rfl⟩
    | evict l => exact ⟨fun h => (nomatch h), rfl⟩
    | put a v =>
      rcases List.mem_append.mp hop with hop | hop
      · exact absurd hop (hput a v)
      · exact absurd hop (hput' a v)
    | load a => exact ⟨fun h => (nomatch h), rfl⟩
    | _ =>
      obtain ⟨i, -, heq⟩ := hin _ hop rfl
      cases heq
  · intro a ha
    obtain ⟨i, hi, heq⟩ := hin _ ha rfl
    cases heq
    exact ⟨linesOf_byteAt hi, rfl⟩

/-- **After `p4_flash_copy`** the data is in memory, whatever the cache held and did in between. -/
theorem flashCopy_written (hf : rom.Fills) (hlen : len < 2 ^ 32) {offset : Nat} {b : Board ρ} {w : Traced ρ κ}
    (h : Ends (flashCopyTraced rom offset len dest) ⟨b, [], []⟩ true w) {t : List (CpuOp κ)}
    (ht : t.filter Cache.Op.cpu = w.ops) (hput : ∀ a v, .put a v ∉ t) (s : Psram κ) :
    Written rom line dest len w.delivered t s := by
  classical
  obtain ⟨hlength, hops, -⟩ := flashCopyTraced_ends hf h
  rw [hops] at ht
  obtain ⟨pre, post, rfl, hpost⟩ := cut_trace ht
  -- what is known of a word before the copy: its value, unless a clean line disagrees with memory
  obtain ⟨last, hlast⟩ : ∃ last : BitVec 32 → Option UInt8,
      last = fun a => if s.Coherent line a then some (s.value line a) else none := ⟨_, rfl⟩
  have hk₀ : Cache.Kept line (fun _ => true) s last := by
    refine Cache.kept_coherent fun a v hv => ?_
    rw [hlast] at hv
    dsimp only at hv
    split at hv
    · exact ⟨Option.some.inj hv, by assumption⟩
    · cases hv
  have hguarded : Cache.Guarded false ((pre ++ .drop :: post).filter Cache.Op.cpu) := by
    rw [ht]
    exact guarded_storesAt false dest w.delivered
  obtain ⟨hclean, hkept⟩ : Cache.Clean (linesOf line dest len)
      (Cache.exec line (linesOf line dest len) (pre ++ .drop :: post) s) ∧ _ := hguarded.flushed hpost hk₀
  have hnote : (pre ++ .drop :: post).foldl Cache.note last =
      (storesAt dest w.delivered : List (CpuOp κ)).foldl Cache.note last := by
    rw [Cache.foldl_note_filter hput, ht, List.foldl_append]
    rfl
  rw [hnote] at hkept
  have hstored : ∀ i < len, (storesAt dest w.delivered : List (CpuOp κ)).foldl Cache.note last
      (byteAt (dest + i)) = some (w.delivered.getD i 0) := fun i hi =>
    note_storesAt (by rw [hlength]; exact hlen) (by rw [hlength]; exact hi)
  refine ⟨hlength, fun i hi => ?_, hclean, fun i hi => ?_, fun a ha hcoh => ?_, pre, post, rfl,
    fun m t' ht' hput' => ?_⟩
  · exact (hkept _ _ rfl (hstored i hi)).2 (hclean _ (linesOf_byteAt hi))
  · exact hkept.word rfl (hstored i hi)
  · have hv : (storesAt dest w.delivered : List (CpuOp κ)).foldl Cache.note last a = some (s.value line a) := by
      rw [note_storesAt_other fun i hi => ha i (hlength ▸ hi), hlast]
      exact if_pos hcoh
    exact hkept.word rfl hv
  · have hputpost : ∀ a v, .put a v ∉ post := fun a v hin =>
      hput a v (List.mem_append_right _ (List.mem_cons_of_mem _ hin))
    rw [Cache.exec_append]
    exact congrArg (rom.crc32le 0) (loaded_mem hpost hputpost ht' hput')

/-- What the CPU sees through the cache is what `flashCopy` makes of the board's memory. -/
theorem flashCopy_view (hf : rom.Fills) (hdest : dest + len ≤ 2 ^ 32) {offset : Nat} {b : Board ρ} {w : Traced ρ κ}
    (h : Ends (flashCopyTraced rom offset len dest) ⟨b, [], []⟩ true w) {t : List (CpuOp κ)} {s : Psram κ}
    (hw : Written rom line dest len w.delivered t s) {a : Nat} (ha : a < 2 ^ 32)
    (hcoh : s.Coherent line (byteAt a)) (hview : s.value line (byteAt a) = b.mem a) :
    Ends (flashCopy rom offset len dest) b true w.board ∧
      (Cache.exec line (linesOf line dest len) t s).value line (byteAt a) = w.board.mem a := by
  refine ⟨(flashCopyTraced_board offset len dest).ends h, ?_⟩
  obtain ⟨hlength, -, hmem⟩ := flashCopyTraced_ends hf h
  rw [hmem]
  unfold Board.store
  dsimp only
  split
  · rename_i hin
    rw [hlength] at hin
    have hi := hw.view (a - dest) (by omega)
    rwa [Nat.add_sub_cancel' hin.1] at hi
  · rename_i hout
    rw [hlength] at hout
    rw [hw.rest (byteAt a) (fun i hi he => ?_) hcoh, hview]
    have hnat := congrArg BitVec.toNat he
    unfold byteAt at hnat
    rw [BitVec.toNat_ofNat, BitVec.toNat_ofNat] at hnat
    omega

end

end

/-! ## 5. Two words -/

/-- Lines of 16 bytes. -/
def line16 (a : BitVec 32) : Nat := a.toNat / 16

/-- Memory of zeroes, one line held, dirty and full of 7s. -/
def heldLine : Psram Nat := ⟨fun _ => 0, fun l => if l = 0x48000000 / 16 then some ⟨true, fun _ => 7⟩ else none⟩

/-- Eight bytes into the middle of a line that is held and dirty, which the cache gives up after three of them and
fetches again between the two cache operations. -/
theorem flashCopy_written_held : ∃ (w : Traced Unit Nat) (t : List (CpuOp Nat)),
    Ends (flashCopyTraced (flashRom fun a => UInt8.ofNat a) 0x20000 8 0x48000004) ⟨freshBoard, [], []⟩ true w ∧
    w.delivered = [0, 1, 2, 3, 4, 5, 6, 7] ∧
    Written (flashRom fun a => UInt8.ofNat a) line16 0x48000004 8 w.delivered t heldLine := by
  obtain ⟨w, hw⟩ : ∃ w : Traced Unit Nat,
      w = ((flashCopyTraced (flashRom fun a => UInt8.ofNat a) 0x20000 8 0x48000004) ⟨freshBoard, [], []⟩).2 :=
    ⟨_, rfl⟩
  have hends : Ends (flashCopyTraced (flashRom fun a => UInt8.ofNat a) 0x20000 8 0x48000004)
      ⟨freshBoard, [], []⟩ true w := hw ▸ ends_of_fst (by decide +kernel)
  have hdel : w.delivered = [0, 1, 2, 3, 4, 5, 6, 7] := by
    rw [hw]
    decide +kernel
  have hfills : (flashRom fun a => UInt8.ofNat a).Fills := (flashRom_guarded _).fills
  obtain ⟨-, hops, -⟩ := flashCopyTraced_ends hfills hends
  rw [hdel] at hops
  refine ⟨w, storesAt 0x48000004 [0, 1, 2] ++ .evict (0x48000000 / 16) :: storesAt 0x48000007 [3, 4, 5, 6, 7] ++
    [.writeback, .fill (0x48000000 / 16), .drop], hends, hdel, ?_⟩
  refine flashCopy_written hfills (by decide) hends (hops ▸ rfl) (fun a v hin => ?_) heldLine
  simp [storesAt] at hin

end P4Linux.Boot
