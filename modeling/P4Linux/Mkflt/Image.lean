import P4Linux.Mkflt.PcRel

/-!
# The image as a memory map

* `Stays` -- no section and no step of the walk leaves the integers; `walkEnd_of_inside`;
* `blob_cut` -- the chunked writer ends at `lastKey`, however far the image reaches;
* `ImageExact`, `image_exact_iff` -- **the layout loses nothing and overlaps nothing** if and only if it stays
  inside the integers, which at 64 bits it always does.
-/

namespace P4Linux.Mkflt

open Lua

variable {w : Nat}

/-! ## 1. Staying inside -/

/-- **No allocatable section and no step of the walk leaves the integers of the script.** -/
structure Stays (sec : List (Section w)) : Prop where
  sizes : ∀ s ∈ sec, s.alloc = true → s.size.toNat < 2 ^ (w - 1)
  walk : walkEnd 0 (loadOrder sec) ≤ lastKey w

instance (sec : List (Section w)) : Decidable (Stays sec) :=
  decidable_of_iff ((∀ s ∈ sec, s.alloc = true → s.size.toNat < 2 ^ (w - 1)) ∧
    walkEnd 0 (loadOrder sec) ≤ lastKey w) ⟨fun h => ⟨h.1, h.2⟩, fun h => ⟨h.1, h.2⟩⟩

/-- What lies inside the image has not wrapped: the walk in natural numbers is the script's. -/
theorem walkEnd_of_inside (hw : 32 ≤ w) {n : Nat} (hn : n < 2 ^ (w - 1)) {len : BitVec w} {l : List (Section w)}
    (hlen : len.toNat < 2 ^ (w - 1))
    (h : ∀ p ∈ bases len l, 0 ≤ p.2.toInt ∧ p.2.toInt + p.1.size.toNat ≤ n) :
    walkEnd len.toNat l = (lenAfter len l).toNat := by
  induction l generalizing len with
  | nil => rfl
  | cons s rest ih =>
    have h2 := two_pow_pred_lt hw
    obtain ⟨hbase, hend⟩ : 0 ≤ (alignUp len s.align).toInt ∧ (alignUp len s.align).toInt + s.size.toNat ≤ n :=
      h (s, alignUp len s.align) List.mem_cons_self
    have hlt := toNat_lt_of_toInt_nonneg hbase
    rw [toInt_of_lt hw hlt] at hend
    have hnext : (alignUp len s.align + s.size).toNat = roundUp s.align len.toNat + s.size.toNat := by
      rw [BitVec.toNat_add_of_lt (by omega), alignUp_roundUp hw hlen]
    have hlt' : (alignUp len s.align + s.size).toNat < 2 ^ (w - 1) := by
      rw [BitVec.toNat_add_of_lt (by omega)]
      omega
    have hstep := ih hlt' fun p hp => h p (List.mem_cons_of_mem _ hp)
    rw [hnext] at hstep
    exact hstep

theorem stays_64 {host : Host} {d : List UInt8} {obj : Obj 64} (h : load host d = .ok obj) : Stays obj.sec where
  sizes s hs _ := (small_of_load h s hs).1.trans (by norm_num)
  walk := walkEnd_of_fits (fits_64 h)

/-! ## 2. The file -/

/-- **An image that reaches past `lastKey` is cut off there.** -/
theorem blob_cut (hw : 32 ≤ w) {m : Image w} {len : BitVec w} {body : List UInt8} (h : blob m len = .ok body) :
    body.length ≤ lastKey w := by
  have hlength := congrArg List.length (blob_map hw h)
  rw [List.length_map, List.length_map, List.length_range] at hlength
  rw [hlength]
  exact Nat.min_le_right _ _

/-! ## 3. Nothing lost, nothing overlapping -/

/-- A relocated field covers the byte at image offset `i`. -/
def Covered (d : List UInt8) (obj : Obj w) (i : Nat) : Prop :=
  ∃ r ∈ relocs d obj, Field r.loc r.width (BitVec.ofNat w (i + 1))

structure ImageExact (host : Host) (d out : List UInt8) (obj : Obj w) : Prop where
  placed : ∀ s ∈ obj.sec, (obj.lay.base s.index).isSome = true ↔ s.alloc = true ∧ s.size ≠ 0
  inside : ∀ s ∈ obj.sec, ∀ b, obj.lay.base s.index = some b →
    0 ≤ b.toInt ∧ b.toInt + s.size.toNat ≤ obj.lay.imageLen.toInt
  apart : ∀ s ∈ obj.sec, ∀ t ∈ obj.sec, s.index ≠ t.index → ∀ b c, obj.lay.base s.index = some b →
    obj.lay.base t.index = some c → b.toInt + s.size.toNat ≤ c.toInt ∨ c.toInt + t.size.toNat ≤ b.toInt
  nobitsLast : ∀ s ∈ obj.sec, ∀ t ∈ obj.sec, s.nobits = false → t.nobits = true → ∀ b c,
    obj.lay.base s.index = some b → obj.lay.base t.index = some c → b.toInt + s.size.toNat ≤ c.toInt
  length : (out.length : Int) = 64 + obj.lay.imageLen.toInt
  contents : ∀ s ∈ obj.sec, s.nobits = false → ∀ b, obj.lay.base s.index = some b →
    ∃ bytes, host.objcopy s.name = .bytes bytes ∧ bytes.length = s.size.toNat ∧
      ∀ i < bytes.length, ¬ Covered d obj (b.toNat + i) → out[64 + b.toNat + i]? = bytes[i]?
  zero : ∀ i < obj.lay.imageLen.toNat, ¬ Covered d obj i →
    (∀ s ∈ obj.sec, s.nobits = false → ∀ b, obj.lay.base s.index = some b →
      ¬ (b.toNat ≤ i ∧ i < b.toNat + s.size.toNat)) → out[64 + i]? = some 0

section Written

variable {host : Host} {d body : List UInt8} {obj : Obj w} {st : LinkState w} {head : List UInt8}

/-- A byte that no relocation covers is in the file as it was before the loop. -/
theorem fileByte_uncovered (hw : 32 ≤ w) (hlen : obj.lay.imageLen.toNat ≤ lastKey w)
    (hloop : relocLoop host d obj.syms (relocSites obj.sec obj.lay) obj.image = .ok st)
    (hblob : blob st.image obj.lay.imageLen = .ok body) (hh : head.length = 64) {i : Nat}
    (hi : i < obj.lay.imageLen.toNat) (hno : ¬ Covered d obj i) :
    (head ++ body)[64 + i]? = obj.image (BitVec.ofNat w (i + 1)) := by
  rw [fileByte_of_blob hw hlen hblob hh hi]
  exact loop_frame (relocLoop_apply hloop) fun r hr hf => hno ⟨r, hr, hf⟩

/-- The sections that are placed are the ones with a size, none of which is negative. -/
theorem placed_of_sizes (hw : 32 ≤ w) {sec : List (Section w)} (hnd : (sec.map (·.index)).Nodup) {s : Section w}
    (hs : s ∈ sec) (hsize : s.alloc = true → s.size.toNat < 2 ^ (w - 1)) :
    ((layout sec).base s.index).isSome = true ↔ s.alloc = true ∧ s.size ≠ 0 := by
  have hloads : s.loads = true ↔ s.alloc = true ∧ 0 < s.size.toInt := by
    rw [Section.loads, Bool.and_eq_true, slt_zero, decide_eq_true_eq]
  have hself : ((layout sec).base s.index).isSome = true ↔ s.loads = true := by
    rw [base_layout_isSome]
    constructor
    · rintro ⟨t, ht, hidx, h⟩
      obtain rfl := List.inj_on_of_nodup_map hnd ht hs hidx
      exact h
    · exact fun h => ⟨s, hs, rfl, h⟩
  rw [hself, hloads]
  refine and_congr_right fun halloc => ?_
  rw [toInt_of_lt hw (hsize halloc), ← BitVec.toNat_inj.ne]
  have hz : (0 : BitVec w).toNat = 0 := BitVec.toNat_zero
  omega

theorem imageExact_of_stays (hw : 32 ≤ w) (hload : load host d = .ok obj) (h : Stays obj.sec)
    (hloop : relocLoop host d obj.syms (relocSites obj.sec obj.lay) obj.image = .ok st)
    (hblob : blob st.image obj.lay.imageLen = .ok body) (hh : head.length = 64) :
    ImageExact host d (head ++ body) obj := by
  have hnd := nodup_of_load hload
  obtain ⟨-, e, -, -, hlay, hblit, -⟩ := load_ok hload
  obtain ⟨ht, hlast⟩ := tiled_of_walk hw h.walk hnd
  rw [← hlay] at ht hlast
  have hkey := lastKey_lt (w := w)
  have h2 := two_pow_pred_lt hw
  have hlen := ht.len
  have hi : obj.lay.imageLen.toInt = obj.lay.imageLen.toNat := toInt_of_lt hw (by omega)
  have hbase : ∀ s ∈ obj.sec, ∀ b, obj.lay.base s.index = some b →
      b.toInt = b.toNat ∧ b.toNat + s.size.toNat ≤ obj.lay.imageLen.toNat := by
    intro s hs b hb
    have hin := ht.inside s hs b hb
    exact ⟨toInt_of_lt hw (by omega), hin⟩
  have hbyte := fun {i : Nat} (hi : i < obj.lay.imageLen.toNat) (hno : ¬ Covered d obj i) =>
    fileByte_uncovered hw hlen hloop hblob hh hi hno
  constructor
  case placed =>
    intro s hs
    rw [hlay]
    exact placed_of_sizes hw hnd hs (h.sizes s hs)
  case inside =>
    intro s hs b hb
    have hb := hbase s hs b hb
    omega
  case apart =>
    intro s hs t ht' hne b c hb hc
    have hor := ht.apart s hs t ht' hne b c hb hc
    have hb := hbase s hs b hb
    have hc := hbase t ht' c hc
    omega
  case nobitsLast =>
    intro s hs t ht' hno hyes b c hb hc
    have hle := hlast s hs t ht' hno hyes b c hb hc
    have hb := hbase s hs b hb
    have hc := hbase t ht' c hc
    omega
  case length =>
    have hbody := congrArg List.length (blob_map hw hblob)
    rw [List.length_map, List.length_map, List.length_range, written_of_le hw hlen] at hbody
    rw [List.length_append, hh, hbody, hi]
    rfl
  case contents =>
    intro s hs hno b hb
    obtain ⟨bytes, hobj, hsz, hbytes⟩ := blitAll_bytes hw ht hnd hblit hs hno hb
    refine ⟨bytes, hobj, hsz, fun i hib hcov => ?_⟩
    have hin := (hbase s hs b hb).2
    rw [Nat.add_assoc, hbyte (by omega) hcov, Nat.add_assoc, key_add]
    exact hbytes i hib
  case zero =>
    intro i hin hcov hout
    have hnat : (BitVec.ofNat w (i + 1)).toNat = i + 1 := by
      rw [BitVec.toNat_ofNat, Nat.mod_eq_of_lt (by omega)]
    rw [hbyte hin hcov, blitAll_other hw hblit fun s hs hno b hb hf => ?_,
      blank_inside hw (by omega) (by omega) (by omega)]
    have hb' := hbase s hs b hb
    have hk := field_toNat hf (by omega)
    exact hout s hs hno b hb (by omega)

/-- What holds of the file holds of the walk. -/
theorem stays_of_imageExact (hw : 32 ≤ w) (hload : load host d = .ok obj)
    (hblob : blob st.image obj.lay.imageLen = .ok body) (hh : head.length = 64)
    (h : ImageExact host d (head ++ body) obj) : Stays obj.sec := by
  have hnd := nodup_of_load hload
  obtain ⟨-, e, -, -, hlay, -, -⟩ := load_ok hload
  have hlen := h.length
  rw [List.length_append, hh] at hlen
  have hnonneg : 0 ≤ obj.lay.imageLen.toInt := by omega
  have hlt := toNat_lt_of_toInt_nonneg hnonneg
  have hi : obj.lay.imageLen.toInt = obj.lay.imageLen.toNat := toInt_of_lt hw hlt
  constructor
  case sizes =>
    intro s hs halloc
    by_cases hz : s.size = 0
    · rw [hz]
      exact Nat.two_pow_pos (w - 1)
    · have hplaced := (h.placed s hs).mpr ⟨halloc, hz⟩
      rw [hlay] at hplaced
      obtain ⟨t, ht, hidx, hloads⟩ := base_layout_isSome.mp hplaced
      obtain rfl := List.inj_on_of_nodup_map hnd ht hs hidx
      rw [Section.loads, Bool.and_eq_true, slt_zero, decide_eq_true_eq] at hloads
      exact toNat_lt_of_toInt_nonneg (by omega)
  case walk =>
    have hz : (0 : BitVec w).toNat = 0 := BitVec.toNat_zero
    have hwalk : walkEnd (0 : BitVec w).toNat (loadOrder obj.sec) = (lenAfter 0 (loadOrder obj.sec)).toNat := by
      refine walkEnd_of_inside hw hlt (by rw [hz]; exact Nat.two_pow_pos _) fun p hp => ?_
      have hfst := List.mem_map_of_mem (f := Prod.fst) hp
      rw [bases_fst, mem_loadOrder] at hfst
      have hbase := (base_layout_iff hnd hfst.1 (b := p.2)).mpr hp
      rw [← hlay] at hbase
      have hin := h.inside p.1 hfst.1 p.2 hbase
      rw [hi] at hin
      exact hin
    rw [hz, ← imageLen_layout hnd, ← hlay] at hwalk
    rw [hwalk]
    by_contra hcut
    have hbody := blob_cut hw hblob
    omega

end Written

/-- **The layout loses nothing and overlaps nothing** if and only if it stays inside the integers: at 64 bits
    it always does. -/
theorem image_exact_iff (hw : w = 64 ∨ w = 32) {host : Host} {stack : BitVec w} {d out : List UInt8}
    {obj : Obj w} (h : mkflt w host stack d = .ok out) (hload : load host d = .ok obj) :
    ImageExact host d out obj ↔ w = 64 ∨ Stays obj.sec := by
  obtain ⟨obj', st, body, hload', hloop, hblob, rfl⟩ := mkflt_ok h
  obtain rfl : obj = obj' := Except.ok.inj (hload.symm.trans hload')
  have hstays : w = 64 ∨ Stays obj.sec ↔ Stays obj.sec := by
    refine ⟨?_, .inr⟩
    rintro (rfl | hstays)
    · exact stays_64 hload
    · exact hstays
  rw [hstays]
  exact ⟨stays_of_imageExact (by omega) hload hblob (header_length _ _ _),
    fun hstays => imageExact_of_stays (by omega) hload hstays hloop hblob (header_length _ _ _)⟩

theorem image_exact_lla : ∃ (obj : Obj 32) (out : List UInt8),
    mkflt 32 (.ofSections llaProgram) 8192 (Elf.object llaProgram) = .ok out ∧ Stays obj.sec ∧
    ImageExact (.ofSections llaProgram) (Elf.object llaProgram) out obj := by
  obtain ⟨obj, out, hout, hobj, hp⟩ := exists_linked (w := 32) (.ofSections llaProgram) 8192
    (Elf.object llaProgram) (p := fun _ obj => decide (Stays obj.sec)) (by decide +kernel)
  have hstays : Stays obj.sec := of_decide_eq_true hp
  exact ⟨obj, out, hout, hstays, (image_exact_iff (.inr rfl) hout hobj).mpr (.inr hstays)⟩

/-- The `.bss` of `wrapProgram` is neither in the image nor in the file, which ends with its header. -/
theorem not_image_exact : ∃ (obj : Obj 32) (out : List UInt8),
    mkflt 32 (.ofSections wrapProgram) 8192 (Elf.object wrapProgram) = .ok out ∧
    load (.ofSections wrapProgram) (Elf.object wrapProgram) = .ok obj ∧
    FieldsInside obj (relocs (Elf.object wrapProgram) obj) ∧ out.length = 64 ∧ obj.lay.imageLen.toInt < 0 ∧
    ¬ ImageExact (.ofSections wrapProgram) (Elf.object wrapProgram) out obj := by
  obtain ⟨obj, out, hout, hobj, hp⟩ := exists_linked (w := 32) (.ofSections wrapProgram) 8192
    (Elf.object wrapProgram) (p := fun out obj => decide (out.length = 64) &&
      (decide (FieldsInside obj (relocs (Elf.object wrapProgram) obj)) &&
        decide (obj.lay.imageLen.toInt < 0))) (by decide +kernel)
  simp only [Bool.and_eq_true, decide_eq_true_eq] at hp
  obtain ⟨hlen, hin, hneg⟩ := hp
  refine ⟨obj, out, hout, hobj, hin, hlen, hneg, fun hall => ?_⟩
  have hlength := hall.length
  rw [hlen] at hlength
  omega

end P4Linux.Mkflt
