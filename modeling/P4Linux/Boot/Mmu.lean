import Mathlib.Data.Nat.Find
import P4Linux.Boot.Psram
import P4Linux.Lib.Proc

/-!
# The memory management units

`hal/mmu_hal.c` and `hal/mmu_ll.h` as the bootloader vendors them, and `p4_psram_init`, which maps the whole chip
with them. A unit is a table behind an index register: every access to an entry sets the index first.

* `Mmus.reach` -- where an address of a unit's window leads;
* `mmu_run` -- maps and unmaps, one after the other, do to it what they say, **the fault assertions never fire**, and
  the units do not disturb each other;
* `map_reads_iff` -- but a region leads where it was mapped to only up to the width of an entry;
* `paddr_to_vaddr_iff` -- the way back finds the lowest address;
* `init_test_iff` -- **with the chip mapped, the memory test passes** if and only if the chip is as large as it says.
-/

namespace P4Linux.Boot

/-! ## 1. The registers -/

/-- MMU_LL_FLASH_MMU_ID and MMU_LL_PSRAM_MMU_ID. -/
inductive MmuId where
  | flash | psram
  deriving DecidableEq, Repr

inductive MmuTarget where
  | flash0 | psram0
  deriving DecidableEq, Repr

/-- `SPI_MEM_x_MMU_ITEM_INDEX_REG`, and the table that `SPI_MEM_x_MMU_ITEM_CONTENT_REG` shows an entry of. -/
structure Mmu where
  index : BitVec 32
  items : BitVec 32 → BitVec 32

abbrev Mmus := MmuId → Mmu

def writeIndex (id : MmuId) (e : BitVec 32) : Proc Mmus Unit :=
  Proc.step fun m => ((), Function.update m id { m id with index := e })

def writeContent (id : MmuId) (v : BitVec 32) : Proc Mmus Unit :=
  Proc.step fun m => ((), Function.update m id { m id with items := Function.update (m id).items (m id).index v })

def readContent (id : MmuId) : Proc Mmus (BitVec 32) := Proc.step fun m => ((m id).items (m id).index, m)

/-! ## 2. mmu_ll.h -/

/-- SOC_MMU_x_VALID. -/
def MmuId.valid : MmuId → BitVec 32
  | flash => 0x1000#32
  | psram => 0x800#32

/-- SOC_MMU_ACCESS_x. -/
def MmuId.access : MmuId → BitVec 32
  | flash => 0#32
  | psram => 0x400#32

/-- SOC_MMU_x_SENSITIVE. -/
def MmuId.sensitive : MmuId → BitVec 32
  | flash => 0x2000#32
  | psram => 0x1000#32

/-- SOC_MMU_x_VALID_VAL_MASK. -/
def MmuId.valMask : MmuId → BitVec 32
  | flash => 0x7ff#32
  | psram => 0x3ff#32

/-- SOC_MMU_x_VADDR_BASE. -/
def MmuId.vaddrBase : MmuId → BitVec 32
  | flash => 0x40000000#32
  | psram => 0x48000000#32

/-- `mmu_ll_get_entry_target`. -/
def MmuId.entryTarget : MmuId → MmuTarget
  | flash => .flash0
  | psram => .psram0

/-- `mmu_ll_cache_encryption_enabled`, of the efuse's count. -/
def cacheEncryptionEnabled (cnt : BitVec 32) : Bool := ((cnt >>> 2 ^^^ cnt >>> 1 ^^^ cnt) &&& 1#32) = 1#32

/-- `mmu_ll_get_entry_id`. -/
def getEntryId (vaddr : BitVec 32) : BitVec 32 := (vaddr &&& 0x3ffffff#32) >>> 16

/-- `mmu_ll_format_paddr`. -/
def formatPaddr (paddr : BitVec 32) : BitVec 32 := paddr >>> 16

/-- What `mmu_ll_write_entry` makes of a value. -/
def entryValue (cnt : BitVec 32) (id : MmuId) (val : BitVec 32) : BitVec 32 :=
  if cacheEncryptionEnabled cnt then val ||| id.valid ||| id.access ||| id.sensitive
  else val ||| id.valid ||| id.access

/-- `mmu_ll_write_entry`; what fails an `ESP_FAULT_ASSERT` does not come back. -/
def writeEntry (cnt : BitVec 32) (id : MmuId) (e val : BitVec 32) (target : MmuTarget) : Proc Mmus Unit := do
  writeIndex id e
  writeContent id (entryValue cnt id val)
  if cacheEncryptionEnabled cnt = true ∧ target = .psram0 then
    if (← readContent id) &&& MmuId.psram.sensitive = 0#32 then Proc.stuck else pure ()
  else if ¬ (cacheEncryptionEnabled cnt = true ∧ target = .psram0) then pure () else Proc.stuck

/-- `mmu_ll_set_entry_invalid`. -/
def setEntryInvalid (id : MmuId) (e : BitVec 32) : Proc Mmus Unit := do
  writeIndex id e
  writeContent id 0#32

/-- `mmu_ll_check_entry_valid`. -/
def checkEntryValid (id : MmuId) (e : BitVec 32) : Proc Mmus Bool := do
  writeIndex id e
  return (← readContent id) &&& id.valid ≠ 0#32

/-- `mmu_ll_entry_id_to_paddr_base`. -/
def entryIdToPaddrBase (id : MmuId) (e : BitVec 32) : Proc Mmus (BitVec 32) := do
  writeIndex id e
  return ((← readContent id) &&& id.valMask) <<< 16

/-- `mmu_ll_find_entry_id_based_on_map_value`, from entry `i` on with `n` to go. -/
def findEntryId (id : MmuId) (val : BitVec 32) (target : MmuTarget) : Nat → Nat → Proc Mmus (Option (BitVec 32))
  | _, 0 => pure none
  | i, n + 1 => do
    if (← checkEntryValid id (BitVec.ofNat 32 i)) = true ∧ id.entryTarget = target then
      writeIndex id (BitVec.ofNat 32 i)
      if (← readContent id) &&& id.valMask = val then return some (BitVec.ofNat 32 i)
    findEntryId id val target (i + 1) n

/-! ## 3. mmu_hal.c -/

/-- `mmu_hal_unmap_all` of one unit, from entry `i` on with `n` to go. -/
def unmapFrom (id : MmuId) : Nat → Nat → Proc Mmus Unit
  | _, 0 => pure ()
  | i, n + 1 => do
    setEntryInvalid id (BitVec.ofNat 32 i)
    unmapFrom id (i + 1) n

def mmuHalUnmapAll : Proc Mmus Unit := do
  unmapFrom .flash 0 1024
  unmapFrom .psram 0 1024

/-- The loop of `mmu_hal_map_region`. -/
def mapLoop (cnt : BitVec 32) (id : MmuId) (target : MmuTarget) : Nat → BitVec 32 → BitVec 32 → Proc Mmus Unit
  | 0, _, _ => pure ()
  | n + 1, vaddr, val => do
    writeEntry cnt id (getEntryId vaddr) val target
    mapLoop cnt id target n (vaddr + 0x10000#32) (val + 1#32)

def pageNum (len : BitVec 32) : BitVec 32 := (len + 0xffff#32) / 0x10000#32

/-- `mmu_hal_map_region`, which returns `*out_len`. -/
def mmuHalMapRegion (cnt : BitVec 32) (id : MmuId) (target : MmuTarget) (vaddr paddr len : BitVec 32) :
    Proc Mmus (BitVec 32) := do
  mapLoop cnt id target (pageNum len).toNat vaddr (formatPaddr paddr)
  return pageNum len <<< 16

/-- The loop of `mmu_hal_unmap_region`. -/
def unmapLoop (id : MmuId) : Nat → BitVec 32 → Proc Mmus Unit
  | 0, _ => pure ()
  | n + 1, vaddr => do
    setEntryInvalid id (getEntryId vaddr)
    unmapLoop id n (vaddr + 0x10000#32)

def mmuHalUnmapRegion (id : MmuId) (vaddr len : BitVec 32) : Proc Mmus Unit :=
  unmapLoop id (pageNum len).toNat vaddr

/-- `mmu_hal_vaddr_to_paddr`. -/
def mmuHalVaddrToPaddr (id : MmuId) (vaddr : BitVec 32) : Proc Mmus (Option (BitVec 32 × MmuTarget)) := do
  if (← checkEntryValid id (getEntryId vaddr)) = false then return none
  let base ← entryIdToPaddrBase id (getEntryId vaddr)
  return some (base ||| vaddr % 0x10000#32, id.entryTarget)

/-- `mmu_hal_paddr_to_vaddr`. -/
def mmuHalPaddrToVaddr (id : MmuId) (paddr : BitVec 32) (target : MmuTarget) : Proc Mmus (Option (BitVec 32)) := do
  match ← findEntryId id (formatPaddr paddr) target 0 1024 with
  | none => return none
  | some e =>
    let base := id.vaddrBase ||| e <<< 16
    if base = 0#32 then return none
    return some (base ||| paddr % 0x10000#32)

/-! ## 4. An entry -/

/-- An entry written, the index left at it. -/
def Mmus.write (m : Mmus) (id : MmuId) (e v : BitVec 32) : Mmus :=
  Function.update m id ⟨e, Function.update (m id).items e v⟩

/-- The index left at an entry. -/
def Mmus.seek (m : Mmus) (id : MmuId) (e : BitVec 32) : Mmus := Function.update m id { m id with index := e }

section Entry

variable {m : Mmus} {id : MmuId} {e v val : BitVec 32}

theorem or_and_self (x b : BitVec 32) : (x ||| b) &&& b = b := by
  ext i hi
  simp only [BitVec.getElem_and, BitVec.getElem_or]
  cases x[i] <;> cases b[i] <;> rfl

theorem entryValue_valid (cnt : BitVec 32) : entryValue cnt id val &&& id.valid ≠ 0#32 := by
  have hbit : ∀ x c : BitVec 32, (x ||| id.valid ||| c) &&& id.valid = id.valid := by
    intro x c
    rw [BitVec.or_assoc, BitVec.or_comm id.valid, ← BitVec.or_assoc, or_and_self]
  have hne : id.valid ≠ 0#32 := by cases id <;> decide
  unfold entryValue
  split
  · rw [BitVec.or_assoc, hbit]
    exact hne
  · rw [hbit]
    exact hne

theorem entryValue_masked (cnt : BitVec 32) : entryValue cnt id val &&& id.valMask = val &&& id.valMask := by
  have hout : ∀ x c : BitVec 32, c &&& id.valMask = 0#32 → (x ||| c) &&& id.valMask = x &&& id.valMask := by
    intro x c hc
    rw [BitVec.and_or_distrib_right, hc, BitVec.or_zero]
  unfold entryValue
  split
  · rw [hout _ _ (by cases id <;> decide), hout _ _ (by cases id <;> decide), hout _ _ (by cases id <;> decide)]
  · rw [hout _ _ (by cases id <;> decide), hout _ _ (by cases id <;> decide)]

/-- The bit the fault assertion asks for is there, in either unit. -/
theorem entryValue_sensitive {cnt : BitVec 32} (h : cacheEncryptionEnabled cnt = true) :
    entryValue cnt id val &&& MmuId.psram.sensitive ≠ 0#32 := by
  rw [entryValue, if_pos h]
  cases id with
  | flash =>
    have hbit : val ||| MmuId.flash.valid ||| MmuId.flash.access ||| MmuId.flash.sensitive =
        (val ||| 0x2000#32) ||| MmuId.psram.sensitive := by
      simp only [MmuId.valid, MmuId.access, MmuId.sensitive, BitVec.or_zero]
      rw [BitVec.or_assoc, BitVec.or_comm 0x1000#32, BitVec.or_assoc]
    rw [hbit, or_and_self]
    decide
  | psram =>
    rw [or_and_self]
    decide

theorem content_ends : Proc.Ends (writeContent id v) (m.seek id e) () (m.write id e v) := by
  refine Proc.ends_step.mpr ?_
  simp [Mmus.write, Mmus.seek]

theorem read_ends : Proc.Ends (readContent id) (m.seek id e) ((m id).items e) (m.seek id e) := by
  refine Proc.ends_step.mpr ?_
  simp [Mmus.seek]

theorem read_write_ends : Proc.Ends (readContent id) (m.write id e v) v (m.write id e v) := by
  refine Proc.ends_step.mpr ?_
  simp [Mmus.write]

theorem setEntryInvalid_ends : Proc.Ends (setEntryInvalid id e) m () (m.write id e 0#32) :=
  Proc.Ends.bind (t := m.seek id e) rfl content_ends

/-- An entry is written, and no fault is seen. -/
theorem writeEntry_ends (cnt : BitVec 32) (target : MmuTarget) :
    Proc.Ends (writeEntry cnt id e val target) m () (m.write id e (entryValue cnt id val)) := by
  refine Proc.Ends.bind (t := m.seek id e) rfl (Proc.Ends.bind content_ends ?_)
  split
  · rename_i h
    refine Proc.Ends.bind read_write_ends ?_
    rw [if_neg (entryValue_sensitive h.1)]
    rfl
  · rfl

theorem checkEntryValid_ends : Proc.Ends (checkEntryValid id e) m (decide ((m id).items e &&& id.valid ≠ 0#32))
    (m.seek id e) :=
  Proc.Ends.bind (t := m.seek id e) rfl (Proc.Ends.bind read_ends rfl)

end Entry

/-! ## 5. Where an address leads -/

/-- The place of an address in its window, and how far the entries of a unit reach. -/
def offset (a : BitVec 32) : Nat := a.toNat % 2 ^ 26

def MmuId.span : MmuId → Nat
  | flash => 2 ^ 27
  | psram => 2 ^ 26

/-- What an address leads to through a unit. -/
def Mmus.reach (m : Mmus) (id : MmuId) (a : BitVec 32) : Option (BitVec 32) :=
  let v := (m id).items (getEntryId a)
  if v &&& id.valid = 0#32 then none else some ((v &&& id.valMask) <<< 16 ||| a % 0x10000#32)

theorem toNat_getEntryId (a : BitVec 32) : (getEntryId a).toNat = offset a / 65536 := by
  have hand : (a &&& 0x3ffffff#32).toNat = a.toNat % 2 ^ 26 := by
    rw [BitVec.toNat_and]
    exact Nat.and_two_pow_sub_one_eq_mod a.toNat 26
  rw [getEntryId, BitVec.toNat_ushiftRight, hand, Nat.shiftRight_eq_div_pow, offset]

@[simp] theorem items_seek (m : Mmus) (id id' : MmuId) (e : BitVec 32) : ((m.seek id e) id').items = (m id').items := by
  rw [Mmus.seek, Function.update_apply]
  split
  · rename_i h
    rw [h]
  · rfl

@[simp] theorem reach_seek (m : Mmus) (id : MmuId) (e : BitVec 32) : (m.seek id e).reach = m.reach := by
  funext id' a
  simp [Mmus.reach]

/-- **`mmu_hal_vaddr_to_paddr`** says where an address leads. -/
theorem vaddrToPaddr_ends (m : Mmus) (id : MmuId) (a : BitVec 32) :
    ∃ m', Proc.Ends (mmuHalVaddrToPaddr id a) m ((m.reach id a).map (·, id.entryTarget)) m' ∧
      m'.reach = m.reach := by
  unfold mmuHalVaddrToPaddr Mmus.reach
  by_cases hv : (m id).items (getEntryId a) &&& id.valid = 0#32
  · refine ⟨m.seek id (getEntryId a), Proc.Ends.bind checkEntryValid_ends ?_, reach_seek m id _⟩
    simp only [hv]
    rfl
  · refine ⟨(m.seek id (getEntryId a)).seek id (getEntryId a), Proc.Ends.bind checkEntryValid_ends ?_, by simp⟩
    rw [if_neg (by simp [hv])]
    refine Proc.Ends.bind (Proc.Ends.bind (t := (m.seek id (getEntryId a)).seek id (getEntryId a)) rfl
      (Proc.Ends.bind read_ends rfl)) ?_
    simp only [items_seek, if_neg hv]
    rfl

theorem toNat_masked (id : MmuId) (val : BitVec 32) : (val &&& id.valMask).toNat = val.toNat % (id.span / 65536) := by
  rw [BitVec.toNat_and]
  cases id with
  | flash => exact Nat.and_two_pow_sub_one_eq_mod val.toNat 11
  | psram => exact Nat.and_two_pow_sub_one_eq_mod val.toNat 10

/-- The page and the place in it. -/
theorem toNat_page (id : MmuId) (x a : BitVec 32) : ((x &&& id.valMask) <<< 16 ||| a % 0x10000#32).toNat =
    (x &&& id.valMask).toNat * 65536 + a.toNat % 65536 := by
  have hsmall : (x &&& id.valMask).toNat <<< 16 < 2 ^ 32 := by
    rw [Nat.shiftLeft_eq, toNat_masked]
    cases id <;> simp only [MmuId.span] <;> omega
  have hlow : (a % 0x10000#32).toNat = a.toNat % 65536 := by
    rw [BitVec.toNat_umod]
    rfl
  have hlt : a.toNat % 65536 < 2 ^ 16 := Nat.mod_lt _ (by decide)
  rw [BitVec.toNat_or, BitVec.toNat_shiftLeft, hlow, Nat.mod_eq_of_lt hsmall, ← Nat.shiftLeft_add_eq_or_of_lt hlt,
    Nat.shiftLeft_eq]

/-- An entry of the value `val` shows the `val`th page of the memory. -/
theorem page_eq (id : MmuId) (val a : BitVec 32) : (val &&& id.valMask) <<< 16 ||| a % 0x10000#32 =
    BitVec.ofNat 32 ((val.toNat * 65536 + a.toNat % 65536) % id.span) := by
  apply BitVec.eq_of_toNat_eq
  rw [toNat_page, toNat_masked, BitVec.toNat_ofNat]
  cases id <;> simp only [MmuId.span] <;> omega

/-- What a written entry does to the addresses. -/
theorem reach_write (m : Mmus) (id : MmuId) (v : BitVec 32) (x : BitVec 32) :
    (m.write id (getEntryId v) x).reach = Function.update m.reach id fun a =>
      if offset a / 65536 = offset v / 65536 then
        if x &&& id.valid = 0#32 then none else some ((x &&& id.valMask) <<< 16 ||| a % 0x10000#32)
      else m.reach id a := by
  funext id' a
  by_cases hid : id' = id
  · subst hid
    have hentry : getEntryId a = getEntryId v ↔ offset a / 65536 = offset v / 65536 := by
      rw [← toNat_getEntryId, ← toNat_getEntryId, BitVec.toNat_inj]
    rw [Function.update_self]
    by_cases h : getEntryId a = getEntryId v
    · rw [if_pos (hentry.mp h), Mmus.reach, Mmus.write, Function.update_self, h]
      simp only [Function.update_self]
    · rw [if_neg (mt hentry.mpr h), Mmus.reach, Mmus.write, Function.update_self]
      simp only [Function.update_of_ne h, Mmus.reach]
  · rw [Function.update_of_ne hid, Mmus.reach, Mmus.write, Function.update_of_ne hid]
    rfl

/-- What `mmu_hal_vaddr_to_paddr` says of an address. -/
def Mmus.Leads (m : Mmus) (id : MmuId) (a r : BitVec 32) (target : MmuTarget) : Prop :=
  ∃ m', Proc.Ends (mmuHalVaddrToPaddr id a) m (some (r, target)) m'

theorem leads_iff {m : Mmus} {id : MmuId} {a r : BitVec 32} {target : MmuTarget} :
    m.Leads id a r target ↔ id.entryTarget = target ∧ m.reach id a = some r := by
  obtain ⟨m', he, -⟩ := vaddrToPaddr_ends m id a
  constructor
  · rintro ⟨m'', he'⟩
    have hmap := (he.unique he').1
    rw [Option.map_eq_some_iff] at hmap
    obtain ⟨x, hx, heq⟩ := hmap
    rw [hx, (Prod.mk.inj heq).1]
    exact ⟨(Prod.mk.inj heq).2, rfl⟩
  · rintro ⟨rfl, h⟩
    rw [h] at he
    exact ⟨m', he⟩

/-! ## 6. Regions -/

/-- What every unit shows at every address. -/
abbrev View := MmuId → BitVec 32 → Option (BitVec 32)

/-- `n` pages of a window from `lo` on, put over what was there. -/
def View.over (w : View) (id : MmuId) (lo n : Nat) (f : Nat → Option (BitVec 32)) : View :=
  Function.update w id fun a =>
    if lo ≤ offset a ∧ offset a < lo + n * 65536 then f (offset a - lo) else w id a

/-- The pages of the memory from `val` on. -/
def pages (id : MmuId) (val : BitVec 32) (k : Nat) : Option (BitVec 32) :=
  some (BitVec.ofNat 32 ((val.toNat * 65536 + k) % id.span))

section Region

variable {m : Mmus} {id : MmuId} {w : View} {lo n : Nat} {v val : BitVec 32}

theorem over_zero (f : Nat → Option (BitVec 32)) : w.over id lo 0 f = w := by
  have hnone : ∀ a, ¬ (lo ≤ offset a ∧ offset a < lo + 0 * 65536) := by
    intro a
    omega
  unfold View.over
  simp only [hnone, if_false]
  exact Function.update_eq_self id w

/-- A page, and the pages behind it. -/
theorem over_succ (f : Nat → Option (BitVec 32)) :
    (w.over id lo 1 f).over id (lo + 65536) n (fun k => f (65536 + k)) = w.over id lo (n + 1) f := by
  unfold View.over
  rw [Function.update_idem, Function.update_self]
  congr 1
  funext a
  by_cases h2 : lo + 65536 ≤ offset a ∧ offset a < lo + 65536 + n * 65536
  · have hin : lo ≤ offset a ∧ offset a < lo + (n + 1) * 65536 := by omega
    have hk : 65536 + (offset a - (lo + 65536)) = offset a - lo := by omega
    rw [if_pos h2, if_pos hin]
    exact congrArg f hk
  · rw [if_neg h2]
    by_cases h1 : lo ≤ offset a ∧ offset a < lo + 1 * 65536
    · have hin : lo ≤ offset a ∧ offset a < lo + (n + 1) * 65536 := ⟨h1.1, by omega⟩
      rw [if_pos h1, if_pos hin]
    · have hout : ¬ (lo ≤ offset a ∧ offset a < lo + (n + 1) * 65536) := by
        intro hin
        rcases Nat.lt_or_ge (offset a) (lo + 65536) with hlt | hge
        · exact h1 ⟨hin.1, by omega⟩
        · exact h2 ⟨hge, by omega⟩
      rw [if_neg h1, if_neg hout]

theorem reach_map (m : Mmus) (id : MmuId) (val cnt : BitVec 32) (hv : v.toNat % 65536 = 0) :
    (m.write id (getEntryId v) (entryValue cnt id val)).reach = View.over m.reach id (offset v) 1 (pages id val) := by
  rw [reach_write, View.over]
  congr 1
  funext a
  rw [if_neg (entryValue_valid cnt), entryValue_masked, page_eq]
  have hsame : offset a / 65536 = offset v / 65536 ↔ offset v ≤ offset a ∧ offset a < offset v + 1 * 65536 := by
    unfold offset
    omega
  by_cases h : offset a / 65536 = offset v / 65536
  · rw [if_pos h, if_pos (hsame.mp h), pages]
    congr 4
    unfold offset at h ⊢
    omega
  · rw [if_neg h, if_neg (mt hsame.mpr h)]

theorem reach_unmap (m : Mmus) (id : MmuId) (hv : v.toNat % 65536 = 0) :
    (m.write id (getEntryId v) 0#32).reach = View.over m.reach id (offset v) 1 fun _ => none := by
  rw [reach_write, View.over]
  congr 1
  funext a
  have hsame : offset a / 65536 = offset v / 65536 ↔ offset v ≤ offset a ∧ offset a < offset v + 1 * 65536 := by
    unfold offset
    omega
  simp only [BitVec.zero_and, if_true, hsame]

theorem offset_next (h : offset v + 65536 < 2 ^ 26) : offset (v + 0x10000#32) = offset v + 65536 := by
  unfold offset at *
  rw [BitVec.toNat_add]
  change (v.toNat + 65536) % 2 ^ 32 % 2 ^ 26 = _
  omega

/-- **The loop of `mmu_hal_map_region`**, page by page. -/
theorem mapLoop_ends (m : Mmus) (id : MmuId) (val cnt : BitVec 32) (target : MmuTarget) (hv : v.toNat % 65536 = 0)
    (hn : offset v + n * 65536 ≤ 2 ^ 26) (hval : val.toNat + n < 2 ^ 32) :
    ∃ m', Proc.Ends (mapLoop cnt id target n v val) m () m' ∧
      m'.reach = View.over m.reach id (offset v) n (pages id val) := by
  induction n generalizing m v val with
  | zero => exact ⟨m, rfl, (over_zero _).symm⟩
  | succ n ih =>
    have hnext : (v + 0x10000#32).toNat % 65536 = 0 := by
      rw [BitVec.toNat_add]
      change (v.toNat + 65536) % 2 ^ 32 % 65536 = 0
      omega
    have hval' : (val + 1#32).toNat = val.toNat + 1 := by
      rw [BitVec.toNat_add]
      change (val.toNat + 1) % 2 ^ 32 = _
      omega
    have hpage := reach_map m id val cnt hv
    have hshift : pages id (val + 1#32) = fun k => pages id val (65536 + k) := by
      funext k
      have hk : (val.toNat + 1) * 65536 + k = val.toNat * 65536 + (65536 + k) := by omega
      rw [pages, pages, hval', hk]
    cases n with
    | zero =>
      refine ⟨_, Proc.Ends.bind (writeEntry_ends cnt target) rfl, hpage⟩
    | succ n =>
      have hoff := offset_next (v := v) (by omega)
      obtain ⟨m', he, hr⟩ := ih (v := v + 0x10000#32) (m.write id (getEntryId v) (entryValue cnt id val)) (val + 1#32)
        hnext (by omega) (by omega)
      refine ⟨m', Proc.Ends.bind (writeEntry_ends cnt target) he, ?_⟩
      rw [hr, hpage, hoff, hshift, over_succ]

/-- **The loop of `mmu_hal_unmap_region`.** -/
theorem unmapLoop_ends (hv : v.toNat % 65536 = 0) (hn : offset v + n * 65536 ≤ 2 ^ 26) :
    ∃ m', Proc.Ends (unmapLoop id n v) m () m' ∧ m'.reach = View.over m.reach id (offset v) n fun _ => none := by
  induction n generalizing m v with
  | zero => exact ⟨m, rfl, (over_zero _).symm⟩
  | succ n ih =>
    have hnext : (v + 0x10000#32).toNat % 65536 = 0 := by
      rw [BitVec.toNat_add]
      change (v.toNat + 65536) % 2 ^ 32 % 65536 = 0
      omega
    have hpage := reach_unmap m id hv
    cases n with
    | zero => exact ⟨_, Proc.Ends.bind setEntryInvalid_ends rfl, hpage⟩
    | succ n =>
      have hoff := offset_next (v := v) (by omega)
      obtain ⟨m', he, hr⟩ := ih (m := m.write id (getEntryId v) 0#32) hnext (by omega)
      refine ⟨m', Proc.Ends.bind setEntryInvalid_ends he, ?_⟩
      rw [hr, hpage, hoff, over_succ (f := fun _ => none)]

theorem unmapFrom_ends (id : MmuId) (i n : Nat) (m : Mmus) : ∃ m', Proc.Ends (unmapFrom id i n) m () m' ∧
    (∀ id', id' ≠ id → m' id' = m id') ∧
    ∀ e : BitVec 32, (i ≤ e.toNat ∧ e.toNat < i + n → (m' id).items e = 0#32) ∧
      ((m id).items e = 0#32 → (m' id).items e = 0#32) := by
  induction n generalizing i m with
  | zero => exact ⟨m, rfl, (fun _ _ => rfl), fun e => ⟨by omega, fun h => h⟩⟩
  | succ n ih =>
    obtain ⟨m', he, hother, hitems⟩ := ih (i + 1) (m.write id (BitVec.ofNat 32 i) 0#32)
    refine ⟨m', Proc.Ends.bind setEntryInvalid_ends he, ?_, ?_⟩
    · intro id' hid
      rw [hother id' hid, Mmus.write, Function.update_of_ne hid]
    · intro e
      obtain ⟨h1, h2⟩ := hitems e
      have hwrite : ((m.write id (BitVec.ofNat 32 i) 0#32) id).items e =
          if e = BitVec.ofNat 32 i then 0#32 else (m id).items e := by
        simp only [Mmus.write, Function.update_self, Function.update_apply]
      rw [hwrite] at h2
      constructor
      · intro hin
        by_cases hi : e = BitVec.ofNat 32 i
        · exact h2 (if_pos hi)
        · refine h1 ⟨?_, by omega⟩
          have hne : e.toNat ≠ i := fun h => hi (by rw [← h, BitVec.ofNat_toNat, BitVec.setWidth_eq])
          omega
      · intro hz
        refine h2 ?_
        rw [hz, ite_self]

/-- **`mmu_hal_unmap_all`** leaves nothing. -/
theorem unmapAll_ends (m : Mmus) : ∃ m', Proc.Ends mmuHalUnmapAll m () m' ∧ m'.reach = fun _ _ => none := by
  obtain ⟨m₁, he₁, -, h₁⟩ := unmapFrom_ends .flash 0 1024 m
  obtain ⟨m₂, he₂, hother, h₂⟩ := unmapFrom_ends .psram 0 1024 m₁
  refine ⟨m₂, Proc.Ends.bind he₁ he₂, ?_⟩
  have hlt : ∀ a, (getEntryId a).toNat < 1024 := by
    intro a
    rw [toNat_getEntryId, offset]
    omega
  funext id a
  have hz : (m₂ id).items (getEntryId a) = 0#32 := by
    have hin : 0 ≤ (getEntryId a).toNat ∧ (getEntryId a).toNat < 0 + 1024 := ⟨Nat.zero_le _, by have := hlt a; omega⟩
    cases id with
    | flash =>
      rw [hother .flash (by decide)]
      exact (h₁ _).1 hin
    | psram => exact (h₂ _).1 hin
  simp [Mmus.reach, hz]

end Region

/-! ## 7. Runs -/

/-- SOC_ADDRESS_IN_DRAM_FLASH and SOC_ADDRESS_IN_DRAM_PSRAM. -/
def inFlash (a : BitVec 32) : Bool := 0x40000000#32 ≤ a && a < 0x44000000#32
def inPsram (a : BitVec 32) : Bool := 0x48000000#32 ≤ a && a < 0x4C000000#32

/-- `mmu_ll_check_valid_ext_vaddr_region`. -/
def checkValidExtVaddrRegion (vaddr len : BitVec 32) : Bool :=
  let vaddrEnd := vaddr + len - 1#32
  inFlash vaddr && inFlash vaddrEnd || inPsram vaddr && inPsram vaddrEnd

/-- SOC_MMU_x_MAX_PADDR_PAGE_NUM pages, in bytes. -/
def MmuId.maxPaddr : MmuId → BitVec 32
  | flash => 0x80000000#32
  | psram => 0x40000000#32

/-- `mmu_ll_check_valid_paddr_region`. -/
def checkValidPaddrRegion (id : MmuId) (paddr len : BitVec 32) : Bool :=
  paddr < id.maxPaddr && len < id.maxPaddr && paddr + len - 1#32 < id.maxPaddr

inductive MmuOp where
  | map (id : MmuId) (target : MmuTarget) (vaddr paddr len : BitVec 32)
  | unmap (id : MmuId) (vaddr len : BitVec 32)
  | unmapAll

def MmuOp.run (cnt : BitVec 32) : MmuOp → Proc Mmus Unit
  | map id target vaddr paddr len => do
    let _ ← mmuHalMapRegion cnt id target vaddr paddr len
  | unmap id vaddr len => mmuHalUnmapRegion id vaddr len
  | unmapAll => mmuHalUnmapAll

def runOps (cnt : BitVec 32) : List MmuOp → Proc Mmus Unit
  | [] => pure ()
  | op :: ops => do
    op.run cnt
    runOps cnt ops

/-- What the functions assert of their arguments. That a region to unmap does not go round the address space is not
    asserted. -/
def MmuOp.Fits : MmuOp → Prop
  | map id _ vaddr paddr len => vaddr.toNat % 65536 = 0 ∧ paddr.toNat % 65536 = 0 ∧
      checkValidPaddrRegion id paddr len = true ∧ checkValidExtVaddrRegion vaddr len = true
  | unmap _ vaddr len => vaddr.toNat % 65536 = 0 ∧ checkValidExtVaddrRegion vaddr len = true ∧
      vaddr.toNat + len.toNat ≤ 2 ^ 32
  | unmapAll => True

/-- What an operation does to what the units show. -/
def MmuOp.apply (w : View) : MmuOp → View
  | map id _ vaddr paddr len =>
    w.over id (offset vaddr) (pageNum len).toNat fun k => some (BitVec.ofNat 32 ((paddr.toNat + k) % id.span))
  | unmap id vaddr len => w.over id (offset vaddr) (pageNum len).toNat fun _ => none
  | unmapAll => fun _ _ => none

theorem toNat_pageNum {len : BitVec 32} (h : len.toNat < 2 ^ 32 - 65536) :
    (pageNum len).toNat = (len.toNat + 65535) / 65536 := by
  rw [pageNum, BitVec.toNat_udiv, BitVec.toNat_add]
  change (len.toNat + 65535) % 2 ^ 32 / 65536 = _
  omega

theorem window_of_check {v len : BitVec 32} (h : checkValidExtVaddrRegion v len = true)
    (hround : v.toNat + len.toNat ≤ 2 ^ 32) (hlen : 0 < len.toNat) :
    offset v + len.toNat ≤ 2 ^ 26 ∧ len.toNat ≤ 2 ^ 26 := by
  have hend : (v + len - 1#32).toNat = v.toNat + len.toNat - 1 := by
    rw [BitVec.toNat_sub, BitVec.toNat_add]
    change (2 ^ 32 - 1 + (v.toNat + len.toNat) % 2 ^ 32) % 2 ^ 32 = _
    omega
  have hcase : v.toNat + len.toNat ≤ 0x44000000 ∧ 0x40000000 ≤ v.toNat ∨
      v.toNat + len.toNat ≤ 0x4C000000 ∧ 0x48000000 ≤ v.toNat := by
    simp only [checkValidExtVaddrRegion, inFlash, inPsram, Bool.or_eq_true, Bool.and_eq_true, decide_eq_true_eq,
      BitVec.le_def, BitVec.lt_def, hend] at h
    change (1073741824 ≤ _ ∧ _ < 1140850688) ∧ _ ∧ _ < 1140850688 ∨
      (1207959552 ≤ _ ∧ _ < 1275068416) ∧ _ ∧ _ < 1275068416 at h
    omega
  unfold offset
  omega

/-- The pages of a region that fits lie in its window. -/
theorem pages_of_check {v len : BitVec 32} (hv : v.toNat % 65536 = 0) (h : checkValidExtVaddrRegion v len = true)
    (hround : v.toNat + len.toNat ≤ 2 ^ 32) :
    (pageNum len).toNat = (len.toNat + 65535) / 65536 ∧ offset v + (pageNum len).toNat * 65536 ≤ 2 ^ 26 := by
  have hoff : offset v < 2 ^ 26 := Nat.mod_lt _ (by decide)
  have hal : offset v % 65536 = 0 := by
    unfold offset
    omega
  rcases Nat.eq_zero_or_pos len.toNat with hz | hpos
  · rw [toNat_pageNum (by omega)]
    omega
  · obtain ⟨h1, h2⟩ := window_of_check h hround hpos
    rw [toNat_pageNum (by omega)]
    omega

/-- The other assertions of a map keep it from going round. -/
theorem round_of_check {id : MmuId} {v p len : BitVec 32} (hp : checkValidPaddrRegion id p len = true)
    (h : checkValidExtVaddrRegion v len = true) : v.toNat + len.toNat ≤ 2 ^ 32 := by
  have hlen : len.toNat < 0x80000000 := by
    simp only [checkValidPaddrRegion, Bool.and_eq_true, decide_eq_true_eq, BitVec.lt_def] at hp
    cases id with
    | flash => exact hp.1.2
    | psram => exact Nat.lt_trans hp.1.2 (by decide)
  have hv : v.toNat < 0x4C000000 := by
    simp only [checkValidExtVaddrRegion, inFlash, inPsram, Bool.or_eq_true, Bool.and_eq_true, decide_eq_true_eq,
      BitVec.le_def, BitVec.lt_def] at h
    rcases h with ⟨⟨-, h⟩, -⟩ | ⟨⟨-, h⟩, -⟩
    · exact Nat.lt_trans h (by decide)
    · exact h
  omega

theorem formatPaddr_pages {id : MmuId} {p : BitVec 32} (hp : p.toNat % 65536 = 0) :
    pages id (formatPaddr p) = fun k => some (BitVec.ofNat 32 ((p.toNat + k) % id.span)) := by
  funext k
  have hval : (formatPaddr p).toNat * 65536 = p.toNat := by
    rw [formatPaddr, BitVec.toNat_ushiftRight, Nat.shiftRight_eq_div_pow]
    omega
  rw [pages, hval]

section Runs

variable {cnt : BitVec 32} {id : MmuId} {target : MmuTarget} {v p len : BitVec 32} {m : Mmus}

/-- **`mmu_hal_map_region`** of a region that fits. -/
theorem mapRegion_ends (cnt : BitVec 32) (h : (MmuOp.map id target v p len).Fits) : ∃ m',
    Proc.Ends (mmuHalMapRegion cnt id target v p len) m (pageNum len <<< 16) m' ∧
      m'.reach = (MmuOp.map id target v p len).apply m.reach := by
  obtain ⟨hv, hp, hcheck, hreg⟩ := h
  obtain ⟨hnum, hin⟩ := pages_of_check hv hreg (round_of_check hcheck hreg)
  have hval : (formatPaddr p).toNat < 65536 := by
    rw [formatPaddr, BitVec.toNat_ushiftRight, Nat.shiftRight_eq_div_pow]
    have := p.isLt
    omega
  obtain ⟨m', he, hr⟩ := mapLoop_ends m id (formatPaddr p) cnt target hv hin (by omega)
  refine ⟨m', Proc.Ends.bind he rfl, ?_⟩
  rw [hr, formatPaddr_pages hp]
  rfl

theorem op_ends {op : MmuOp} (h : op.Fits) : ∃ m', Proc.Ends (op.run cnt) m () m' ∧ m'.reach = op.apply m.reach := by
  cases op with
  | map id target v p len =>
    obtain ⟨m', he, hr⟩ := mapRegion_ends cnt (m := m) h
    exact ⟨m', Proc.Ends.bind he rfl, hr⟩
  | unmap id v len =>
    obtain ⟨hv, hreg, hround⟩ := h
    exact unmapLoop_ends hv (pages_of_check hv hreg hround).2
  | unmapAll => exact unmapAll_ends m

theorem ops_ends (cnt : BitVec 32) {ops : List MmuOp} (h : ∀ op ∈ ops, op.Fits) (m : Mmus) :
    ∃ m', Proc.Ends (runOps cnt ops) m () m' ∧ m'.reach = ops.foldl MmuOp.apply m.reach := by
  induction ops generalizing m with
  | nil => exact ⟨m, rfl, rfl⟩
  | cons op ops ih =>
    obtain ⟨m₁, he₁, hr₁⟩ := op_ends (m := m) (h op List.mem_cons_self)
    obtain ⟨m₂, he₂, hr₂⟩ := ih (fun op' h' => h op' (List.mem_cons_of_mem _ h')) m₁
    refine ⟨m₂, Proc.Ends.bind he₁ he₂, ?_⟩
    rw [hr₂, hr₁]
    rfl

end Runs

/-- The units say of every address what `w` does. -/
def Shows (m : Mmus) (w : View) : Prop :=
  ∀ id a, ∃ m', Proc.Ends (mmuHalVaddrToPaddr id a) m ((w id a).map (·, id.entryTarget)) m'

theorem shows_iff {m : Mmus} {w : View} : Shows m w ↔ m.reach = w := by
  constructor
  · intro h
    funext id a
    obtain ⟨m', he⟩ := h id a
    obtain ⟨m'', he', -⟩ := vaddrToPaddr_ends m id a
    have hmap := (he'.unique he).1
    have hinj : Function.Injective fun x : BitVec 32 => (x, id.entryTarget) := fun x y hxy => (Prod.mk.inj hxy).1
    exact Option.map_injective hinj hmap
  · intro h id a
    obtain ⟨m', he, -⟩ := vaddrToPaddr_ends m id a
    rw [h] at he
    exact ⟨m', he⟩

/-- **Any run of maps and unmaps** that keep their assertions comes to its end, and what the units say then is what
    the operations say, one after the other. -/
theorem mmu_run (cnt : BitVec 32) {ops : List MmuOp} (h : ∀ op ∈ ops, op.Fits) {m : Mmus} {w : View}
    (hw : Shows m w) : ∃ m', Proc.Ends (runOps cnt ops) m () m' ∧ Shows m' (ops.foldl MmuOp.apply w) := by
  obtain ⟨m', he, hr⟩ := ops_ends cnt h m
  refine ⟨m', he, shows_iff.mpr ?_⟩
  rw [hr, shows_iff.mp hw]

/-- PSRAM mapped at its window, the first half of it unmapped again. -/
def mapHalf : List MmuOp :=
  [.unmapAll, .map .psram .psram0 0x48000000#32 0#32 0x2000000#32, .unmap .psram 0x48000000#32 0x1000000#32]

theorem mmu_run_half : ∃ m', Proc.Ends (runOps 0#32 mapHalf) (fun _ => ⟨0#32, fun _ => 0#32⟩) () m' ∧
    Shows m' (mapHalf.foldl MmuOp.apply fun _ _ => none) := by
  have hfits : ∀ op ∈ mapHalf, op.Fits := by
    simp only [mapHalf, List.forall_mem_cons]
    exact ⟨trivial, by unfold MmuOp.Fits; decide, by unfold MmuOp.Fits; decide, by simp⟩
  have hshows : Shows (fun _ => ⟨0#32, fun _ => 0#32⟩) fun _ _ => none := by
    refine shows_iff.mpr ?_
    funext id a
    simp [Mmus.reach]
  exact mmu_run 0#32 hfits hshows

theorem offset_add {v : BitVec 32} {k : Nat} (h : offset v + k < 2 ^ 26) :
    offset (v + BitVec.ofNat 32 k) = offset v + k := by
  unfold offset at *
  rw [BitVec.toNat_add, BitVec.toNat_ofNat]
  omega

/-- What is asserted of the memory's pages. -/
theorem paddr_of_check {id : MmuId} {p len : BitVec 32} (hp : p.toNat % 65536 = 0)
    (h : checkValidPaddrRegion id p len = true) (hlen : 0 < len.toNat) :
    p.toNat + (len.toNat + 65535) / 65536 * 65536 ≤ 2 ^ 31 := by
  have hmax : id.maxPaddr.toNat ≤ 2 ^ 31 ∧ id.maxPaddr.toNat % 65536 = 0 := by
    cases id with
    | flash => exact ⟨le_rfl, rfl⟩
    | psram => exact ⟨by decide, rfl⟩
  simp only [checkValidPaddrRegion, Bool.and_eq_true, decide_eq_true_eq, BitVec.lt_def] at h
  obtain ⟨⟨h1, h2⟩, h3⟩ := h
  have hend : (p + len - 1#32).toNat = p.toNat + len.toNat - 1 := by
    rw [BitVec.toNat_sub, BitVec.toNat_add]
    change (2 ^ 32 - 1 + (p.toNat + len.toNat) % 2 ^ 32) % 2 ^ 32 = _
    omega
  omega

/-- **A mapped region reads back as it was mapped** if and only if its pages are among those an entry can tell apart;
    what is asserted lets 16 times as many through. -/
theorem map_reads_iff (cnt : BitVec 32) {id : MmuId} {target : MmuTarget} {v p len : BitVec 32}
    (h : (MmuOp.map id target v p len).Fits) (hlen : 0 < len.toNat) (m : Mmus) : ∃ m',
    Proc.Ends (mmuHalMapRegion cnt id target v p len) m (pageNum len <<< 16) m' ∧
      ((∀ k < (pageNum len).toNat * 65536, m'.Leads id (v + BitVec.ofNat 32 k) (p + BitVec.ofNat 32 k) id.entryTarget) ↔
        p.toNat + (pageNum len).toNat * 65536 ≤ id.span) := by
  obtain ⟨m', he, hr⟩ := mapRegion_ends cnt (m := m) h
  obtain ⟨hv, hp, hcheck, hreg⟩ := h
  obtain ⟨hnum, hin⟩ := pages_of_check hv hreg (round_of_check hcheck hreg)
  have hmem := paddr_of_check hp hcheck hlen
  rw [← hnum] at hmem
  refine ⟨m', he, ?_⟩
  have hread : ∀ k < (pageNum len).toNat * 65536,
      m'.reach id (v + BitVec.ofNat 32 k) = some (BitVec.ofNat 32 ((p.toNat + k) % id.span)) := by
    intro k hk
    have hoff := offset_add (v := v) (k := k) (by omega)
    rw [hr, MmuOp.apply, View.over, Function.update_self, hoff, if_pos ⟨by omega, by omega⟩, Nat.add_sub_cancel_left]
  have hsame : ∀ k < (pageNum len).toNat * 65536,
      (m'.Leads id (v + BitVec.ofNat 32 k) (p + BitVec.ofNat 32 k) id.entryTarget ↔ p.toNat + k < id.span) := by
    intro k hk
    have hspan : id.span ≤ 2 ^ 32 ∧ 0 < id.span := by cases id <;> decide
    have hmod := Nat.mod_lt (p.toNat + k) hspan.2
    have hval : BitVec.ofNat 32 ((p.toNat + k) % id.span) = p + BitVec.ofNat 32 k ↔ p.toNat + k < id.span := by
      rw [← BitVec.toNat_inj, BitVec.toNat_add, BitVec.toNat_ofNat, BitVec.toNat_ofNat]
      constructor
      · intro heq
        omega
      · intro hlt
        rw [Nat.mod_eq_of_lt hlt]
        omega
    rw [leads_iff, hread k hk, Option.some.injEq, hval, and_iff_right rfl]
  constructor
  · intro hall
    have hlast := (hsame ((pageNum len).toNat * 65536 - 1) (by omega)).mp (hall _ (by omega))
    omega
  · intro hle k hk
    exact (hsame k hk).mpr (by omega)

theorem map_reads_half : ∃ m', Proc.Ends (mmuHalMapRegion 0#32 .psram .psram0 0x48000000#32 0#32 0x2000000#32)
    (fun _ => ⟨0#32, fun _ => 0#32⟩) (pageNum 0x2000000#32 <<< 16) m' ∧
      ((∀ k < (pageNum 0x2000000#32).toNat * 65536,
          m'.Leads .psram (0x48000000#32 + BitVec.ofNat 32 k) (0#32 + BitVec.ofNat 32 k) .psram0) ↔
        (0#32 : BitVec 32).toNat + (pageNum 0x2000000#32).toNat * 65536 ≤ MmuId.psram.span) :=
  map_reads_iff 0#32 (by unfold MmuOp.Fits; decide) (by decide) _

/-! ## 8. The way back -/

section Back

variable {m : Mmus} {id : MmuId} {target : MmuTarget} {val : BitVec 32}

/-- The entry `e` is in use and holds `val`. -/
def Mmus.Holds (m : Mmus) (id : MmuId) (val : BitVec 32) (e : Nat) : Prop :=
  (m id).items (BitVec.ofNat 32 e) &&& id.valid ≠ 0#32 ∧ (m id).items (BitVec.ofNat 32 e) &&& id.valMask = val

@[simp] theorem holds_seek (e : BitVec 32) (x : Nat) : (m.seek id e).Holds id val x ↔ m.Holds id val x := by
  simp [Mmus.Holds]

/-- What is found of the entries from `i` on: the lowest one that is right. -/
def Found (m : Mmus) (id : MmuId) (val : BitVec 32) (target : MmuTarget) (i n : Nat) : Option (BitVec 32) → Prop
  | none => id.entryTarget = target → ∀ e, i ≤ e → e < i + n → ¬ m.Holds id val e
  | some x => id.entryTarget = target ∧ ∃ e, x = BitVec.ofNat 32 e ∧ i ≤ e ∧ e < i + n ∧ m.Holds id val e ∧
      ∀ e', i ≤ e' → e' < e → ¬ m.Holds id val e'

theorem Found.miss {i n : Nat} {r : Option (BitVec 32)} (h : Found m id val target (i + 1) n r)
    (hi : id.entryTarget = target → ¬ m.Holds id val i) : Found m id val target i (n + 1) r := by
  cases r with
  | none =>
    intro ht e h1 h2
    rcases Nat.eq_or_lt_of_le h1 with rfl | hlt
    · exact hi ht
    · exact h ht e hlt (by omega)
  | some x =>
    obtain ⟨ht, e, hx, h1, h2, hh, hlow⟩ := h
    refine ⟨ht, e, hx, by omega, by omega, hh, ?_⟩
    intro e' h1' h2'
    rcases Nat.eq_or_lt_of_le h1' with rfl | hlt
    · exact hi ht
    · exact hlow e' hlt h2'

theorem findEntryId_ends (id : MmuId) (val : BitVec 32) (target : MmuTarget) (i n : Nat) (m : Mmus) :
    ∃ r m', Proc.Ends (findEntryId id val target i n) m r m' ∧
    Found m id val target i n r := by
  induction n generalizing i m with
  | zero => exact ⟨none, m, rfl, fun _ e => by omega⟩
  | succ n ih =>
    by_cases hcond : (m id).items (BitVec.ofNat 32 i) &&& id.valid ≠ 0#32 ∧ id.entryTarget = target
    · by_cases hval : (m id).items (BitVec.ofNat 32 i) &&& id.valMask = val
      · refine ⟨some (BitVec.ofNat 32 i), (m.seek id (BitVec.ofNat 32 i)).seek id (BitVec.ofNat 32 i), ?_, ?_⟩
        · refine Proc.Ends.bind checkEntryValid_ends ?_
          rw [if_pos (by simpa using hcond)]
          refine Proc.Ends.bind (t := (m.seek id (BitVec.ofNat 32 i)).seek id (BitVec.ofNat 32 i)) rfl
            (Proc.Ends.bind read_ends ?_)
          simp only [items_seek, if_pos hval]
          rfl
        · exact ⟨hcond.2, i, rfl, le_rfl, by omega, ⟨hcond.1, hval⟩, fun e' h1 h2 => by omega⟩
      · obtain ⟨r, m', he, hf⟩ := ih (i + 1) ((m.seek id (BitVec.ofNat 32 i)).seek id (BitVec.ofNat 32 i))
        refine ⟨r, m', ?_, Found.miss ?_ fun _ hh => hval hh.2⟩
        · refine Proc.Ends.bind checkEntryValid_ends ?_
          rw [if_pos (by simpa using hcond)]
          refine Proc.Ends.bind (t := (m.seek id (BitVec.ofNat 32 i)).seek id (BitVec.ofNat 32 i)) rfl
            (Proc.Ends.bind read_ends ?_)
          simp only [items_seek, if_neg hval]
          exact he
        · cases r <;> simpa [Found] using hf
    · obtain ⟨r, m', he, hf⟩ := ih (i + 1) (m.seek id (BitVec.ofNat 32 i))
      refine ⟨r, m', ?_, Found.miss ?_ fun ht hh => hcond ⟨hh.1, ht⟩⟩
      · refine Proc.Ends.bind checkEntryValid_ends ?_
        rw [if_neg (by simpa using hcond)]
        exact he
      · cases r <;> simpa [Found] using hf

/-- The window of a unit. -/
def MmuId.Window (id : MmuId) (a : BitVec 32) : Prop :=
  id.vaddrBase.toNat ≤ a.toNat ∧ a.toNat < id.vaddrBase.toNat + 2 ^ 26

/-- An address leads to `p` if its entry holds the page of `p` and it has the same place in the page. -/
theorem reach_iff {a p : BitVec 32} : m.reach id a = some p ↔
    m.Holds id (formatPaddr p) (offset a / 65536) ∧ a.toNat % 65536 = p.toNat % 65536 := by
  have hentry : BitVec.ofNat 32 (offset a / 65536) = getEntryId a := by
    rw [← toNat_getEntryId, BitVec.ofNat_toNat, BitVec.setWidth_eq]
  rw [Mmus.Holds, hentry, Mmus.reach]
  generalize (m id).items (getEntryId a) = x
  have hpage := toNat_page id x a
  have hfmt : (formatPaddr p).toNat = p.toNat / 65536 := by
    rw [formatPaddr, BitVec.toNat_ushiftRight, Nat.shiftRight_eq_div_pow]
  by_cases hv : x &&& id.valid = 0#32
  · simp [hv]
  · simp only [if_neg hv, Option.some.injEq]
    constructor
    · intro h
      rw [h] at hpage
      refine ⟨⟨hv, BitVec.eq_of_toNat_eq ?_⟩, by omega⟩
      omega
    · rintro ⟨⟨-, h1⟩, h2⟩
      apply BitVec.eq_of_toNat_eq
      rw [hpage, h1, hfmt]
      omega

/-- `vaddr_base | offset`, of the entry `e`. -/
theorem toNat_addr (id : MmuId) {e : Nat} (he : e < 1024) (p : BitVec 32) :
    (id.vaddrBase ||| BitVec.ofNat 32 e <<< 16 ||| p % 0x10000#32).toNat =
      id.vaddrBase.toNat + e * 65536 + p.toNat % 65536 := by
  have hlow : (p % 0x10000#32).toNat = p.toNat % 65536 := by
    rw [BitVec.toNat_umod]
    rfl
  have he' : (BitVec.ofNat 32 e).toNat <<< 16 = e * 65536 := by
    rw [Nat.shiftLeft_eq, BitVec.toNat_ofNat]
    omega
  have hjoin : (BitVec.ofNat 32 e <<< 16 ||| p % 0x10000#32).toNat = e * 65536 + p.toNat % 65536 := by
    rw [BitVec.toNat_or, BitVec.toNat_shiftLeft, hlow, Nat.mod_eq_of_lt (by omega),
      ← Nat.shiftLeft_add_eq_or_of_lt (by omega), he']
  have hbase : ∃ b, id.vaddrBase.toNat = 2 ^ 26 * b := by
    cases id with
    | flash => exact ⟨16, rfl⟩
    | psram => exact ⟨18, rfl⟩
  obtain ⟨b, hb⟩ := hbase
  rw [BitVec.or_assoc, BitVec.toNat_or, hjoin, hb, ← Nat.two_pow_add_eq_or_of_lt (by omega), Nat.add_assoc]

/-- An address that leads to `p` has an entry that is right. -/
theorem holds_of_leads {u p : BitVec 32} {target : MmuTarget} (hu : id.Window u) (hl : m.Leads id u p target) :
    ∃ e, e < 1024 ∧ m.Holds id (formatPaddr p) e ∧ id.entryTarget = target ∧
      u.toNat = id.vaddrBase.toNat + e * 65536 + p.toNat % 65536 := by
  obtain ⟨ht, hreach⟩ := leads_iff.mp hl
  obtain ⟨hh, hplace⟩ := reach_iff.mp hreach
  refine ⟨_, ?_, hh, ht, ?_⟩ <;> unfold offset MmuId.Window at *
  · omega
  · cases id <;> simp only [MmuId.vaddrBase, BitVec.toNat_ofNat] at * <;> omega

/-- The address an entry that is right is for leads to `p`. -/
theorem leads_of_holds {a p : BitVec 32} {target : MmuTarget} {e : Nat} (hlt : e < 1024)
    (ht : id.entryTarget = target) (hh : m.Holds id (formatPaddr p) e)
    (ha : a.toNat = id.vaddrBase.toNat + e * 65536 + p.toNat % 65536) :
    id.Window a ∧ m.Leads id a p target := by
  have hbase : id.vaddrBase.toNat % 2 ^ 26 = 0 := by
    cases id <;> decide
  refine ⟨?_, leads_iff.mpr ⟨ht, reach_iff.mpr ⟨?_, by omega⟩⟩⟩
  · unfold MmuId.Window
    omega
  · have hentry : offset a / 65536 = e := by
      unfold offset
      omega
    rw [hentry]
    exact hh

/-- **`mmu_hal_paddr_to_vaddr`** finds the lowest address of the window that leads to `p`, or there is none. -/
theorem paddr_to_vaddr_iff (m : Mmus) (id : MmuId) (p : BitVec 32) (target : MmuTarget) : ∃ r m',
    Proc.Ends (mmuHalPaddrToVaddr id p target) m r m' ∧
      ∀ v, r = some v ↔ (id.Window v ∧ m.Leads id v p target) ∧
        ∀ u, id.Window u → m.Leads id u p target → v.toNat ≤ u.toNat := by
  obtain ⟨r, m', he, hf⟩ := findEntryId_ends id (formatPaddr p) target 0 1024 m
  cases r with
  | none =>
    refine ⟨none, m', Proc.Ends.bind he rfl, ?_⟩
    intro v
    constructor
    · intro h
      cases h
    · rintro ⟨⟨hw, hl⟩, -⟩
      obtain ⟨e, hlt, hh, ht, -⟩ := holds_of_leads hw hl
      exact absurd hh (hf ht e (Nat.zero_le e) (by omega))
  | some x =>
    obtain ⟨ht, e, rfl, -, hlt, hh, hlow⟩ := hf
    have haddr := toNat_addr id (e := e) (by omega) p
    have hmod : (p % 0x10000#32).toNat = p.toNat % 65536 := BitVec.toNat_umod
    -- no window begins at 0, so the entry's address is not taken for a failure
    have hne : ¬ id.vaddrBase ||| BitVec.ofNat 32 e <<< 16 = 0#32 := by
      intro h0
      have hbase : 0x40000000 ≤ id.vaddrBase.toNat := by
        cases id <;> decide
      rw [h0, BitVec.zero_or, hmod] at haddr
      omega
    refine ⟨some (id.vaddrBase ||| BitVec.ofNat 32 e <<< 16 ||| p % 0x10000#32), m', Proc.Ends.bind he ?_, ?_⟩
    · simp only [if_neg hne]
      rfl
    generalize id.vaddrBase ||| BitVec.ofNat 32 e <<< 16 ||| p % 0x10000#32 = a at haddr
    obtain ⟨hwin, hlead⟩ := leads_of_holds (by omega) ht hh haddr
    have hleast : ∀ u, id.Window u → m.Leads id u p target → a.toNat ≤ u.toNat := by
      intro u hu hl
      obtain ⟨e', -, hh', -, hu'⟩ := holds_of_leads hu hl
      have hge : e ≤ e' := by
        by_contra hlt'
        exact hlow e' (Nat.zero_le e') (by omega) hh'
      omega
    intro v
    constructor
    · intro h
      cases h
      exact ⟨⟨hwin, hlead⟩, hleast⟩
    · rintro ⟨⟨hw, hl⟩, hmin⟩
      have h1 := hmin a hwin hlead
      have h2 := hleast v hw hl
      rw [BitVec.eq_of_toNat_eq (Nat.le_antisymm h2 h1)]

end Back

/-! ## 9. p4_psram.c -/

/-- `s_psram_size`, of the density field of mode register 2. -/
def psramSizeOf (density : BitVec 3) : BitVec 32 :=
  if density = 0x1#3 then 0x400000#32
  else if density = 0x3#3 then 0x800000#32
  else if density = 0x5#3 then 0x1000000#32
  else if density = 0x7#3 then 0x2000000#32
  else if density = 0x6#3 then 0x4000000#32
  else 0#32

/-- `esp_psram_impl_get_physical_size`. -/
def physicalSize (density : BitVec 3) : Option (BitVec 32) :=
  if psramSizeOf density = 0#32 then none else some (psramSizeOf density)

/-- `p4_psram_init` up to the cache's bus; `enabled` is what `esp_psram_impl_enable` says. -/
def p4PsramInit (cnt : BitVec 32) (enabled : Bool) (density : BitVec 3) : Proc Mmus (Option (BitVec 32)) := do
  if enabled = false then return none
  match physicalSize density with
  | none => return none
  | some psramSize =>
    if psramSize = 0#32 then return none
    let mapLen := psramSize &&& ~~~(0x10000#32 - 1#32)
    let mapped ← mmuHalMapRegion cnt .psram .psram0 0x48000000#32 0#32 mapLen
    if mapped = 0#32 then return none
    return some mapped

/-- `p4_cache_init`'s `mmu_hal_init`, and then `p4_psram_init`. -/
def bringUpMmu (cnt : BitVec 32) (enabled : Bool) (density : BitVec 3) : Proc Mmus (Option (BitVec 32)) := do
  mmuHalUnmapAll
  p4PsramInit cnt enabled density

section Init

variable {density : BitVec 3}

theorem psram_fits : ∀ density, psramSizeOf density ≠ 0#32 →
    (MmuOp.map .psram .psram0 0x48000000#32 0#32 (psramSizeOf density &&& ~~~(0x10000#32 - 1#32))).Fits ∧
      (pageNum (psramSizeOf density &&& ~~~(0x10000#32 - 1#32))).toNat * 65536 = (psramSizeOf density).toNat ∧
      pageNum (psramSizeOf density &&& ~~~(0x10000#32 - 1#32)) <<< 16 = psramSizeOf density ∧
      (psramSizeOf density).toNat ≤ 2 ^ 26 := by
  unfold MmuOp.Fits
  decide

theorem psram_words : ∀ density, psramSizeOf density ≠ 0#32 →
    (psramSizeOf density).toNat % 4 = 0 ∧ 0 < (psramSizeOf density).toNat := by
  decide

/-- The chip at its window, and nothing else. -/
def chipAt (size : Nat) : View := fun id a =>
  if id = .psram ∧ offset a < size then some (BitVec.ofNat 32 (offset a)) else none

/-- **The bring-up** maps the chip, all of it, and nothing else. -/
theorem bringUp_ends (cnt : BitVec 32) (hd : psramSizeOf density ≠ 0#32) (m : Mmus) : ∃ m',
    Proc.Ends (bringUpMmu cnt true density) m (some (psramSizeOf density)) m' ∧
      m'.reach = chipAt (psramSizeOf density).toNat := by
  obtain ⟨hfits, hnum, hout, hsize⟩ := psram_fits density hd
  obtain ⟨m₁, he₁, hr₁⟩ := unmapAll_ends m
  obtain ⟨m₂, he₂, hr₂⟩ := mapRegion_ends cnt (m := m₁) hfits
  rw [hout] at he₂
  refine ⟨m₂, Proc.Ends.bind he₁ ?_, ?_⟩
  · unfold p4PsramInit physicalSize
    rw [if_neg hd]
    simp only [if_neg hd]
    refine Proc.Ends.bind he₂ ?_
    rw [if_neg hd]
    rfl
  · rw [hr₂, hr₁]
    funext id a
    have hbase : offset 0x48000000#32 = 0 := by decide
    have hoff : offset a < 2 ^ 26 := Nat.mod_lt _ (by decide)
    rw [MmuOp.apply, View.over, chipAt, Function.update_apply, hnum, hbase]
    cases id with
    | flash => rfl
    | psram =>
      simp only [if_true, true_and, Nat.zero_le, Nat.zero_add, Nat.sub_zero, BitVec.toNat_ofNat, Nat.zero_mod,
        MmuId.span, Nat.mod_eq_of_lt hoff]

/-- **The memory test after the bring-up**: `f i` is the cell of the chip that the word `i` reaches, a chip of `cells`
    words that does not look at the address lines it has no use for. The test passes if and only if the chip is as
    large as its mode register says. -/
theorem init_test_iff (cnt : BitVec 32) (hd : psramSizeOf density ≠ 0#32) (m : Mmus) {cells : Nat} (hc : 0 < cells)
    (mem : Nat → BitVec 32) (out : Option (BitVec 32)) : ∃ m',
    Proc.Ends (bringUpMmu cnt true density) m (some (psramSizeOf density)) m' ∧
      ∀ f : Nat → Nat, (∀ i < (psramSizeOf density).toNat / 4, ∃ r, m'.Leads .psram (wordAddr i) r .psram0 ∧
          f i = r.toNat / 4 % cells) →
        ((psramTest f mem (psramSizeOf density).toNat out).1 = true ↔ (psramSizeOf density).toNat ≤ 4 * cells) := by
  obtain ⟨m', he, hr⟩ := bringUp_ends cnt hd m
  refine ⟨m', he, ?_⟩
  obtain ⟨-, -, -, hsize⟩ := psram_fits density hd
  have hfour := psram_words density hd
  generalize (psramSizeOf density).toNat = size at *
  intro f hf
  have hcell : ∀ i < size / 4, f i = i % cells := by
    intro i hi
    obtain ⟨r, hl, hfi⟩ := hf i hi
    obtain ⟨-, hreach⟩ := leads_iff.mp hl
    have haddr : offset (wordAddr i) = 4 * i := by
      unfold offset wordAddr psramVaddr
      rw [BitVec.toNat_ofNat]
      omega
    rw [hr, chipAt, if_pos ⟨rfl, by omega⟩, Option.some.injEq, haddr] at hreach
    have hword : 4 * i % 2 ^ 32 / 4 = i := by omega
    rw [hfi, ← hreach, BitVec.toNat_ofNat, hword]
  have hfit : psramVaddr + 4 * (size / 4) ≤ 2 ^ 32 := by
    unfold psramVaddr
    omega
  constructor
  · intro hpass
    by_contra hlt
    -- the word behind the last cell reaches the first one
    have hover : Overwritten f (size / 4) 0 := by
      refine ⟨by omega, cells, hc, by omega, ?_⟩
      rw [hcell cells (by omega), hcell 0 (by omega), Nat.mod_self, Nat.zero_mod]
    obtain ⟨hfail, -⟩ := psramTest_fail rfl hfit mem out hover fun i hi => by omega
    rw [hfail] at hpass
    cases hpass
  · intro hle
    refine psramTest_pass rfl hfit mem out ?_
    rintro i ⟨hi, j, hij, hj, hsame⟩
    rw [hcell i hi, hcell j hj, Nat.mod_eq_of_lt (by omega), Nat.mod_eq_of_lt (by omega)] at hsame
    omega

/-- A chip of 32 MB that says so. -/
theorem init_test_32 : ∃ m', Proc.Ends (bringUpMmu 0#32 true 7#3) (fun _ => ⟨0#32, fun _ => 0#32⟩)
    (some (psramSizeOf 7#3)) m' ∧
      ∀ f : Nat → Nat, (∀ i < (psramSizeOf 7#3).toNat / 4, ∃ r, m'.Leads .psram (wordAddr i) r .psram0 ∧
          f i = r.toNat / 4 % 8388608) →
        ((psramTest f (fun _ => 0#32) (psramSizeOf 7#3).toNat none).1 = true ↔
          (psramSizeOf 7#3).toNat ≤ 4 * 8388608) :=
  init_test_iff 0#32 (by decide) _ (by decide) _ none

end Init

end P4Linux.Boot
