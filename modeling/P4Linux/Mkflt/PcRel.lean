import P4Linux.Lib.Elf
import P4Linux.Mkflt.Apply

/-!
# PC-relative linking is exact

Nothing in the script compares `image_len` with anything. Where it stays inside the integers, a
PC-relative distance in the file is the distance in memory, at whatever address the file is loaded.

* `PcrelExact` -- what the machine needs of an output file at a load address: every HI20/LO12 pair,
  every call, every 32-bit distance adds up, and no patched instruction has lost a bit that is not an
  immediate;
* `applied_keeps`, `applied_pcrelHi20`, … -- what one entry makes of the words it patches;
* `pcrelExact_of_tiled` -- from there to the file, over all entries and chunks;
* `pcrel_exact` -- **an accepted object whose layout fits is linked exactly**, for every load address;
  at 64 bits every layout fits (`fits_64`);
* `pcrel_wraps` -- at 32 bits a layout can wrap, and then the file is wrong.
-/

namespace P4Linux.Mkflt

open Lua Rv

variable {w : Nat}

/-! ## 1. What the machine needs -/

/-- The immediate of a LO12 instruction, by the type of its relocation. -/
def loImm (t : Nat) (x : BitVec 32) : BitVec 32 :=
  if t = R.pcrelLo12I ∨ t = R.lo12I then iImm x else sImm x

/-- The words an instruction relocation patches: offset in the field, bits that must survive. -/
def keepMasks (t : Nat) : List (Nat × BitVec 32) :=
  if t = R.pcrelHi20 ∨ t = R.hi20 ∨ t = R.jal then [(0, keepU)]
  else if t = R.pcrelLo12I ∨ t = R.lo12I then [(0, keepI)]
  else if t = R.pcrelLo12S ∨ t = R.lo12S ∨ t = R.branch then [(0, keepS)]
  else if t = R.call ∨ t = R.callPlt then [(0, keepU), (4, keepI)]
  else []

/-- The address of symbol `k`: the image offset of its section plus `st_value` where that section
    is placed, plain `st_value` for an absolute symbol. -/
def Address (d : List UInt8) (obj : Obj w) (k : Nat) (S : BitVec w) : Prop :=
  ∃ shndx value, symbolEntry d obj.sec k = .ok (shndx, value) ∧
    symbolAddr obj.lay shndx value = some S

theorem symaddr_address {host : Host} {d : List UInt8} {obj : Obj w} (hload : load host d = .ok obj)
    {k : Nat} {S a : BitVec w} (hS : Address d obj k S) (h : symaddr host obj.syms k = .ok a) :
    a = S := by
  obtain ⟨-, e, -, -, -, -, hsyms⟩ := load_ok hload
  obtain ⟨shndx, value, hentry, hS⟩ := hS
  obtain ⟨s, hs, ha⟩ := symaddr_ok h
  obtain ⟨value', hentry', haddr⟩ := symbol_of_readSymbols hsyms hs
  rw [hentry] at hentry'
  cases hentry'
  rw [haddr, hS] at ha
  exact (Option.some.inj ha).symm

/-- **The output file, loaded at `L`, computes every PC-relative address.** -/
structure PcrelExact (host : Host) (d out : List UInt8) (obj : Obj w) (L : BitVec 32) : Prop where
  pair : ∀ hi ∈ relocs d obj, hi.rtype = R.pcrelHi20 → ∀ S, Address d obj hi.rsym S →
    ∀ lo ∈ relocs d obj, lo.rtype = R.pcrelLo12I ∨ lo.rtype = R.pcrelLo12S →
    symaddr host obj.syms lo.rsym = .ok hi.loc →
    ∃ u l, fileWord out (64 + hi.loc.toNat) = some u ∧ fileWord out (64 + lo.loc.toNat) = some l ∧
      L + low hi.loc + uImm u + loImm lo.rtype l = L + low S + low hi.addend
  call : ∀ c ∈ relocs d obj, c.rtype = R.call ∨ c.rtype = R.callPlt → ∀ S, Address d obj c.rsym S →
    ∃ u l, fileWord out (64 + c.loc.toNat) = some u ∧ fileWord out (64 + c.loc.toNat + 4) = some l ∧
      L + low c.loc + uImm u + iImm l = L + low S + low c.addend
  word : ∀ p ∈ relocs d obj, p.rtype = R.rv32Pcrel → ∀ S, Address d obj p.rsym S →
    fileWord out (64 + p.loc.toNat) = some (low S + low p.addend - low p.loc)
  keeps : ∀ r ∈ relocs d obj, ∀ p ∈ keepMasks r.rtype, ∃ s ∈ obj.sec, s.index = r.target ∧
    ∃ x x0, fileWord out (64 + r.loc.toNat + p.1) = some x ∧
      inputWord host s (r.roff.toNat + p.1) = some x0 ∧ x &&& p.2 = x0 &&& p.2

/-- Every relocated field lies inside its target section. -/
def FieldsInside (obj : Obj w) (rels : List (Reloc w)) : Prop :=
  ∀ r ∈ rels, r.width ≠ 0 → ∀ s ∈ obj.sec, s.index = r.target →
    r.roff.toNat + r.width ≤ s.size.toNat

instance (obj : Obj w) (rels : List (Reloc w)) : Decidable (FieldsInside obj rels) :=
  inferInstanceAs (Decidable (∀ r ∈ rels, _))

/-! ## 2. What one entry leaves behind -/

section Step

variable {host : Host} {syms : List (Symbol w)} {st st' : LinkState w} {r : Reloc w}

theorem width_of_keepMasks {p : Nat × BitVec 32} (hp : p ∈ keepMasks r.rtype) : p.1 + 4 ≤ r.width := by
  -- all but the call patch one word
  have one : ∀ {t : Nat} {mask : BitVec 32}, r.rtype = t → t ∉ [R.none, R.relax, R.call, R.callPlt] →
      p ∈ [((0 : Nat), mask)] → p.1 + 4 ≤ r.width := by
    intro t mask ht hn hp
    rw [List.mem_singleton] at hp
    rw [hp, Reloc.width_eq_four ht hn]
  unfold keepMasks at hp
  split at hp
  · rename_i ht
    rcases ht with ht | ht | ht <;> exact one ht (by decide) hp
  split at hp
  · rename_i ht
    rcases ht with ht | ht <;> exact one ht (by decide) hp
  split at hp
  · rename_i ht
    rcases ht with ht | ht | ht <;> exact one ht (by decide) hp
  split at hp
  · rename_i ht
    rw [List.mem_cons, List.mem_singleton] at hp
    rcases hp with rfl | rfl <;> rw [Reloc.width_eq_eight ht]
    omega
  · cases hp

/-- One patched word, with the bits of the old one under the mask. -/
theorem keeps_word (hw : 32 ≤ w) {m : Image w} {off x v : BitVec w} {mask : BitVec 32}
    (hx : rd32 m off = .ok x) (hv : low v &&& mask = low x &&& mask) :
    ∃ x0 x1, imageWord m off = some x0 ∧ imageWord (wr32 m off v) off = some x1 ∧
      x1 &&& mask = x0 &&& mask :=
  ⟨low x, low v, imageWord_of_rd32 hw hx, imageWord_wr32 hw m off v, hv⟩

/-- The two words of a call have no byte in common. -/
theorem field_apart (hw : 32 ≤ w) {off k : BitVec w} (h : Field off 4 k) : ¬ Field (off + 4) 4 k := by
  have hlt : 8 < 2 ^ w := lt_of_lt_of_le (by norm_num) (Nat.pow_le_pow_right (by omega) hw)
  obtain ⟨i, hi, rfl⟩ := h
  rintro ⟨j, hj, e⟩
  rw [BitVec.add_assoc off, show (4 : BitVec w) = BitVec.ofNat w 4 from rfl, ← BitVec.ofNat_add] at e
  exact add_ofNat_ne off (by omega) (by omega) (by omega) e

/-- **An instruction keeps every bit that is not an immediate.** -/
theorem applied_keeps (hw : 32 ≤ w) (h : Applied host syms st r st') {p : Nat × BitVec 32}
    (hp : p ∈ keepMasks r.rtype) :
    ∃ x0 x, imageWord st.image (r.loc + BitVec.ofNat w p.1) = some x0 ∧
      imageWord st'.image (r.loc + BitVec.ofNat w p.1) = some x ∧ x &&& p.2 = x0 &&& p.2 := by
  -- all but the call patch one word, at offset 0
  have one : ∀ {t : Nat} {mask : BitVec 32} {x v : BitVec w}, r.rtype = t →
      keepMasks t = [(0, mask)] → rd32 st.image r.loc = .ok x → low v &&& mask = low x &&& mask →
      ∃ x0 x', imageWord st.image (r.loc + BitVec.ofNat w p.1) = some x0 ∧
        imageWord (wr32 st.image r.loc v) (r.loc + BitVec.ofNat w p.1) = some x' ∧
        x' &&& p.2 = x0 &&& p.2 := by
    intro t mask x v ht hm hx hv
    rw [ht, hm, List.mem_singleton] at hp
    subst hp
    rw [ofNat_zero_add]
    exact keeps_word hw hx hv
  have nil : ∀ {t : Nat}, r.rtype = t → keepMasks t = [] → False := fun ht hm => by
    rw [ht, hm] at hp
    cases hp
  cases h with
  | nothing ht => exact (ht.elim (fun ht => nil ht rfl) fun ht => nil ht rfl).elim
  | rv32Pcrel ht => exact (nil ht rfl).elim
  | add32 ht => exact (nil ht rfl).elim
  | sub32 ht => exact (nil ht rfl).elim
  | set32 ht => exact (nil ht rfl).elim
  | pcrelHi20 ht s x hs hx => exact one ht rfl hx (keepU_putU hw x _)
  | hi20 ht s x hs hx => exact one ht rfl hx (keepU_putU hw x _)
  | jal ht s x hs hr hx => exact one ht rfl hx (keepU_putJ hw x _)
  | pcrelLo12I ht site v x hs hv hx => exact one ht rfl hx (keepI_putI hw x _)
  | lo12I ht s x hs hx => exact one ht rfl hx (keepI_putI hw x _)
  | pcrelLo12S ht site v x hs hv hx => exact one ht rfl hx (keepS_putS hw x _)
  | lo12S ht s x hs hx => exact one ht rfl hx (keepS_putS hw x _)
  | branch ht s x hs hr hx => exact one ht rfl hx (keepS_putB hw x _)
  | call ht s x y hs hx hy =>
    have hm : keepMasks r.rtype = [(0, keepU), (4, keepI)] := by
      rcases ht with ht | ht <;> rw [ht] <;> rfl
    rw [hm, List.mem_cons, List.mem_singleton] at hp
    rcases hp with rfl | rfl
    · rw [ofNat_zero_add]
      refine ⟨low x, _, imageWord_of_rd32 hw hx, ?_,
        keepU_putU hw x (hi20 (s + r.addend - r.loc))⟩
      exact (imageWord_congr fun k hk => wr32_other fun hk' => field_apart hw hk hk').trans
        (imageWord_wr32 hw _ _ _)
    · refine ⟨low y, _, ?_, imageWord_wr32 hw _ _ _, keepI_putI hw y _⟩
      rw [← imageWord_of_rd32 hw hy]
      exact (imageWord_congr fun k hk => wr32_other fun hk' => field_apart hw hk' hk).symm

theorem applied_pcrelHi20 (hw : 32 ≤ w) (h : Applied host syms st r st')
    (ht : r.rtype = R.pcrelHi20) : ∃ s x, symaddr host syms r.rsym = .ok s ∧
      imageWord st'.image r.loc = some (low (putU x (hi20 (s + r.addend - r.loc)))) := by
  cases h
  case pcrelHi20 _ s x hs hx => exact ⟨s, x, hs, imageWord_wr32 hw _ _ _⟩
  all_goals simp_all +decide

/-- The lower half goes with ANY word that was given the upper half. -/
theorem applied_pcrelLo12 (hw : 32 ≤ w) (h : Applied host syms st r st')
    (ht : r.rtype = R.pcrelLo12I ∨ r.rtype = R.pcrelLo12S) :
    ∃ site v l, symaddr host syms r.rsym = .ok site ∧ st.hi20At site = some v ∧
      imageWord st'.image r.loc = some l ∧
      ∀ x, uImm (low (putU x (hi20 v))) + loImm r.rtype l = low v := by
  cases h
  case pcrelLo12I hr site v y hs hv hx =>
    refine ⟨site, v, _, hs, hv, imageWord_wr32 hw _ _ _, fun x => ?_⟩
    rw [loImm, if_pos (.inl hr)]
    exact uImm_add_iImm hw x v y
  case pcrelLo12S hr site v y hs hv hx =>
    refine ⟨site, v, _, hs, hv, imageWord_wr32 hw _ _ _, fun x => ?_⟩
    rw [loImm, if_neg (by rw [hr]; decide)]
    exact uImm_add_sImm hw x v y
  all_goals rcases ht with ht | ht <;> simp_all +decide

theorem applied_call (hw : 32 ≤ w) (h : Applied host syms st r st')
    (ht : r.rtype = R.call ∨ r.rtype = R.callPlt) :
    ∃ s u l, symaddr host syms r.rsym = .ok s ∧ imageWord st'.image r.loc = some u ∧
      imageWord st'.image (r.loc + 4) = some l ∧
      uImm u + iImm l = low (s + r.addend - r.loc) := by
  cases h
  case call _ s x y hs hx hy =>
    refine ⟨s, _, _, hs, ?_, imageWord_wr32 hw _ _ _, uImm_add_iImm hw x _ y⟩
    exact (imageWord_congr fun k hk => wr32_other fun hk' => field_apart hw hk hk').trans
      (imageWord_wr32 hw _ _ _)
  all_goals rcases ht with ht | ht <;> simp_all +decide

theorem applied_rv32Pcrel (hw : 32 ≤ w) (h : Applied host syms st r st')
    (ht : r.rtype = R.rv32Pcrel) : ∃ s, symaddr host syms r.rsym = .ok s ∧
      imageWord st'.image r.loc = some (low (s + r.addend - r.loc)) := by
  cases h
  case rv32Pcrel _ s hs => exact ⟨s, hs, imageWord_wr32 hw _ _ _⟩
  all_goals simp_all +decide

end Step

/-! ## 3. The fields of a linked file -/

/-- A field inside its section is inside the image, and its offset does not wrap. -/
theorem field_inside (hw : 32 ≤ w) {d : List UInt8} {obj : Obj w} (ht : Tiled obj.sec obj.lay)
    (hin : FieldsInside obj (relocs d obj)) {r : Reloc w} (hr : r ∈ relocs d obj)
    (hwid : r.width ≠ 0) :
    ∃ s ∈ obj.sec, s.index = r.target ∧ ∃ b, obj.lay.base s.index = some b ∧
      r.loc = b + BitVec.ofNat w r.roff.toNat ∧ r.roff.toNat + r.width ≤ s.size.toNat ∧
      r.loc.toNat + r.width ≤ obj.lay.imageLen.toNat := by
  have hlast := lastKey_lt (w := w)
  have h2 := two_pow_pred_lt hw
  have hlen := ht.len
  obtain ⟨b, hb, hloc⟩ := loc_of_mem_relocs hr
  obtain ⟨s, hs, hidx⟩ := ht.known _ b hb
  rw [← hidx] at hb
  have hfield := hin r hr hwid s hs hidx
  have hsec := ht.inside s hs b hb
  refine ⟨s, hs, hidx, b, hb, ?_, hfield, ?_⟩
  · rw [hloc, BitVec.ofNat_toNat, BitVec.setWidth_eq]
  · rw [hloc, BitVec.toNat_add_of_lt (by omega)]
    omega

/-- What the image holds in a field before relocation is the object's. -/
theorem input_of_field (hw : 32 ≤ w) {host : Host} {d : List UInt8} {obj : Obj w}
    (ht : Tiled obj.sec obj.lay) (hin : FieldsInside obj (relocs d obj))
    (hload : load host d = .ok obj) {r : Reloc w} (hr : r ∈ relocs d obj) {p : Nat}
    (hp : p + 4 ≤ r.width) : ∃ s ∈ obj.sec, s.index = r.target ∧
      imageWord obj.image (r.loc + BitVec.ofNat w p) = inputWord host s (r.roff.toNat + p) := by
  obtain ⟨s, hs, hidx, b, hb, hloc, hfield, -⟩ := field_inside hw ht hin hr (by omega)
  obtain ⟨-, e, -, -, -, hblit, -⟩ := load_ok hload
  refine ⟨s, hs, hidx, ?_⟩
  rw [hloc, BitVec.add_assoc, ← BitVec.ofNat_add]
  exact imageWord_input hw ht (nodup_of_load hload) hblit hs hb (by omega)

theorem field_add {off k : BitVec w} {p n : Nat} (h : Field (off + BitVec.ofNat w p) n k) :
    Field off (p + n) k := by
  obtain ⟨i, hi, rfl⟩ := h
  refine ⟨p + i, by omega, ?_⟩
  rw [BitVec.add_assoc, ← BitVec.ofNat_add, Nat.add_assoc]

section Linked

variable {host : Host} {d body : List UInt8} {obj : Obj w} {st : LinkState w} {head : List UInt8}
variable (hw : 32 ≤ w) (ht : Tiled obj.sec obj.lay) (hin : FieldsInside obj (relocs d obj))
  (hblob : blob st.image obj.lay.imageLen = .ok body) (hh : head.length = 64)
include hw ht hin hblob hh

/-- A word of an entry's field, in the file. -/
theorem fileWord_field {r : Reloc w} (hr : r ∈ relocs d obj) {p : Nat} (hp : p + 4 ≤ r.width) :
    fileWord (head ++ body) (64 + r.loc.toNat + p) = imageWord st.image (r.loc + BitVec.ofNat w p) := by
  obtain ⟨s, -, -, b, -, -, -, hlen⟩ := field_inside hw ht hin hr (by omega)
  have hlast := lastKey_lt (w := w)
  have h2 := two_pow_pred_lt hw
  have hmax := ht.len
  have e : (r.loc + BitVec.ofNat w p).toNat = r.loc.toNat + p := by
    rw [BitVec.toNat_add, BitVec.toNat_ofNat, Nat.mod_eq_of_lt (by omega : p < 2 ^ w),
      Nat.mod_eq_of_lt (by omega)]
  rw [Nat.add_assoc, ← e]
  exact fileWord_of_blob hw hmax hblob hh (by omega)

/-- **What the file holds where an entry was applied**: the entry found the object's own bytes and
    the file has the bytes it left. -/
theorem linked_entry (hno : NoOverlap (relocs d obj))
    (hloop : relocLoop host d obj.syms (relocSites obj.sec obj.lay) obj.image = .ok st)
    {r : Reloc w} (hr : r ∈ relocs d obj) :
    ∃ st1 st2, Applied host obj.syms st1 r st2 ∧
      (∀ p, p + 4 ≤ r.width → imageWord st1.image (r.loc + BitVec.ofNat w p) =
        imageWord obj.image (r.loc + BitVec.ofNat w p)) ∧
      (∀ p, p + 4 ≤ r.width → fileWord (head ++ body) (64 + r.loc.toNat + p) =
        imageWord st2.image (r.loc + BitVec.ofNat w p)) ∧
      ∀ site v, st1.hi20At site = some v → ∃ q ∈ relocs d obj, HiAt host obj.syms q site v := by
  obtain ⟨st1, st2, hap, hbefore, hafter, hhi⟩ :=
    loop_entry (relocLoop_apply hloop) hno (fun _ => rfl) hr
  refine ⟨st1, st2, hap, fun p hp => imageWord_congr fun k hk => ?_, fun p hp => ?_, hhi⟩
  · exact hbefore k ((field_add hk).mono hp)
  · rw [fileWord_field hw ht hin hblob hh hr hp]
    exact imageWord_congr fun k hk => hafter k ((field_add hk).mono hp)

/-- A file whose image is tiled is exact, at every load address. -/
theorem pcrelExact_of_tiled (hload : load host d = .ok obj) (hno : NoOverlap (relocs d obj))
    (hloop : relocLoop host d obj.syms (relocSites obj.sec obj.lay) obj.image = .ok st)
    (L : BitVec 32) : PcrelExact host d (head ++ body) obj L := by
  have entry := fun {r : Reloc w} (hr : r ∈ relocs d obj) =>
    linked_entry hw ht hin hblob hh hno hloop hr
  have sum : ∀ s a p : BitVec w, L + low p + low (s + a - p) = L + low s + low a := by
    intro s a p
    rw [low_sub hw, low_add hw, BitVec.add_assoc L, BitVec.add_comm (low p), BitVec.sub_add_cancel,
      ← BitVec.add_assoc]
  constructor
  case pair =>
    intro q hq htq S hS lo hlo htlo hsite
    obtain ⟨_, _, hap, -, hfile, -⟩ := entry hq
    obtain ⟨_, _, hap', -, hfile', hhi⟩ := entry hlo
    obtain ⟨s, x, hs, hu⟩ := applied_pcrelHi20 hw hap htq
    obtain ⟨site, v, l, hsite', hv, hl, hpair⟩ := applied_pcrelLo12 hw hap' htlo
    obtain rfl : site = q.loc := Except.ok.inj (hsite'.symm.trans hsite)
    -- the entry that filled the side table at this label is the HI20 itself
    obtain ⟨q', hq', htq', hloc, s', hs', rfl⟩ := hhi _ v hv
    obtain rfl := eq_of_same_site hno hq' hq htq' htq hloc
    obtain rfl := symaddr_address hload hS hs
    obtain rfl := symaddr_address hload hS hs'
    have hwid : lo.width = 4 := htlo.elim (fun e => Reloc.width_eq_four e (by decide))
      fun e => Reloc.width_eq_four e (by decide)
    have hfu := hfile 0 (by rw [Reloc.width_eq_four htq (by decide)])
    have hfl := hfile' 0 (by rw [hwid])
    rw [ofNat_zero_add, hu] at hfu
    rw [ofNat_zero_add, hl] at hfl
    refine ⟨_, l, hfu, hfl, ?_⟩
    rw [BitVec.add_assoc (L + _), hpair x]
    exact sum _ _ _
  case call =>
    intro c hc htc S hS
    obtain ⟨_, _, hap, -, hfile, -⟩ := entry hc
    obtain ⟨s, u, l, hs, hu, hl, hpair⟩ := applied_call hw hap htc
    obtain rfl := symaddr_address hload hS hs
    have hwid := Reloc.width_eq_eight htc
    have hfu := hfile 0 (by omega)
    rw [ofNat_zero_add, hu] at hfu
    refine ⟨u, l, hfu, (hfile 4 (by omega)).trans hl, ?_⟩
    rw [BitVec.add_assoc (L + _), hpair]
    exact sum _ _ _
  case word =>
    intro p hp htp S hS
    obtain ⟨_, _, hap, -, hfile, -⟩ := entry hp
    obtain ⟨s, hs, hword⟩ := applied_rv32Pcrel hw hap htp
    obtain rfl := symaddr_address hload hS hs
    have hfw := hfile 0 (by rw [Reloc.width_eq_four htp (by decide)])
    rw [ofNat_zero_add, hword, low_sub hw, low_add hw] at hfw
    exact hfw
  case keeps =>
    intro r hr p hp
    obtain ⟨_, _, hap, hold, hfile, -⟩ := entry hr
    have hwid := width_of_keepMasks hp
    obtain ⟨x0, x, hx0, hx, hkeep⟩ := applied_keeps hw hap hp
    obtain ⟨s, hs, hidx, hinput⟩ := input_of_field hw ht hin hload hr hwid
    rw [hold _ hwid, hinput] at hx0
    exact ⟨s, hs, hidx, x, x0, (hfile _ hwid).trans hx, hx0, hkeep⟩

end Linked

/-- The last stages of a run whose layout fits: the loop, the chunks, the file. -/
theorem linked_of_mkflt (hw : w = 64 ∨ w = 32) {host : Host} {stack : BitVec w} {d out : List UInt8}
    {obj : Obj w} (h : mkflt w host stack d = .ok out) (hload : load host d = .ok obj)
    (hfit : w = 64 ∨ Fits obj.sec) : ∃ (st : LinkState w) (body head : List UInt8),
      relocLoop host d obj.syms (relocSites obj.sec obj.lay) obj.image = .ok st ∧
      blob st.image obj.lay.imageLen = .ok body ∧ head.length = 64 ∧ out = head ++ body ∧
      Tiled obj.sec obj.lay := by
  have hfit : Fits obj.sec := by
    rcases hfit with rfl | hfit
    · exact fits_64 hload
    · exact hfit
  obtain ⟨obj', st, body, hload', hloop, hblob, rfl⟩ := mkflt_ok h
  rw [hload] at hload'
  cases hload'
  obtain ⟨-, e, -, -, hlay, -, -⟩ := load_ok hload
  exact ⟨st, body, _, hloop, hblob, header_length _ _ _, rfl,
    hlay ▸ tiled_layout (by omega) hfit (nodup_of_load hload)⟩

/-! ## 4. Every accepted object, and an image that wraps -/

/-- What objcopy gives for the sections of `secs`. -/
def Host.ofSections (secs : List Elf.Sec) : Host where
  obj := "a.o"
  out := "a"
  objcopy n := match Elf.contents secs n with
    | some b => .bytes b
    | none => .nothing
  canWrite := true

/-- **PC-relative linking is exact at every load address**, wherever the layout stays inside the
    integers. -/
theorem pcrel_exact (hw : w = 64 ∨ w = 32) {host : Host} {stack : BitVec w} {d out : List UInt8}
    {obj : Obj w} (h : mkflt w host stack d = .ok out) (hload : load host d = .ok obj)
    (hfit : w = 64 ∨ Fits obj.sec) (hin : FieldsInside obj (relocs d obj))
    (hno : NoOverlap (relocs d obj)) (L : BitVec 32) : PcrelExact host d out obj L := by
  obtain ⟨st, body, head, hloop, hblob, hh, rfl, ht⟩ := linked_of_mkflt hw h hload hfit
  exact pcrelExact_of_tiled (by omega) ht hin hblob hh hload hno hloop L

/-- `here: lla a0, msg` and a word of data, `msg`, after it. -/
def llaProgram : List Elf.Sec :=
  Elf.program [0x17, 0x05, 0, 0, 0x13, 0x05, 0x05, 0, 1, 2, 3, 4]
    [Elf.rela 0 2 R.pcrelHi20 0, Elf.rela 4 1 R.pcrelLo12I 0]
    [Elf.sym 0 0, Elf.sym 0 1, Elf.sym 8 1] []

theorem pcrel_exact_lla : ∃ (obj : Obj 32) (out : List UInt8),
    mkflt 32 (.ofSections llaProgram) 8192 (Elf.object llaProgram) = .ok out ∧
    PcrelExact (.ofSections llaProgram) (Elf.object llaProgram) out obj 0x48000000 := by
  obtain ⟨obj, out, hout, hobj, hp⟩ := exists_linked (w := 32) (.ofSections llaProgram) 8192
    (Elf.object llaProgram) (p := fun _ obj => decide (Fits obj.sec) &&
      (decide (FieldsInside obj (relocs (Elf.object llaProgram) obj)) &&
        decide (NoOverlap (relocs (Elf.object llaProgram) obj)))) (by decide +kernel)
  simp only [Bool.and_eq_true, decide_eq_true_eq] at hp
  exact ⟨obj, out, hout, pcrel_exact (.inr rfl) hout hobj (.inr hp.1) hp.2.1 hp.2.2 _⟩

/-- `call f` with `f` the call itself, and a `.bss` of `0x7ffffffc` bytes: at 32 bits `image_len`
    ends negative, and the chunk loop writes nothing after the header. -/
def wrapProgram : List Elf.Sec :=
  Elf.program [0x97, 0, 0, 0, 0xe7, 0x80, 0, 0] [Elf.rela 0 1 R.call 0] [Elf.sym 0 0, Elf.sym 0 1]
    [{ name := [0x62], type := 8, flags := 3, data := [], size := 0x7ffffffc }]

theorem pcrel_wraps : ∃ (obj : Obj 32) (out : List UInt8),
    mkflt 32 (.ofSections wrapProgram) 8192 (Elf.object wrapProgram) = .ok out ∧
    load (.ofSections wrapProgram) (Elf.object wrapProgram) = .ok obj ∧
    FieldsInside obj (relocs (Elf.object wrapProgram) obj) ∧
    NoOverlap (relocs (Elf.object wrapProgram) obj) ∧
    ¬ ∀ L, PcrelExact (.ofSections wrapProgram) (Elf.object wrapProgram) out obj L := by
  obtain ⟨obj, out, hout, hobj, hp⟩ := exists_linked (w := 32) (.ofSections wrapProgram) 8192
    (Elf.object wrapProgram) (p := fun out obj => decide (out.length = 64) &&
      (decide (FieldsInside obj (relocs (Elf.object wrapProgram) obj)) &&
      (decide (NoOverlap (relocs (Elf.object wrapProgram) obj)) &&
      (relocs (Elf.object wrapProgram) obj).any fun c => decide (c.rtype = R.call) &&
        (decide ((symbolEntry (Elf.object wrapProgram) obj.sec c.rsym).toOption = some (1, 0)) &&
        decide (symbolAddr obj.lay 1 0 = some 0))))) (by decide +kernel)
  simp only [Bool.and_eq_true, decide_eq_true_eq, List.any_eq_true] at hp
  obtain ⟨hlen, hin, hno, c, hc, ht, hentry, haddr⟩ := hp
  refine ⟨obj, out, hout, hobj, hin, hno, fun hall => ?_⟩
  obtain ⟨u, l, hu, -⟩ := (hall 0).call c hc (.inl ht) 0 ⟨1, 0, ok_of_toOption hentry, haddr⟩
  -- the file ends where the image should begin
  have hnone : out[64 + c.loc.toNat]? = none := by
    rw [List.getElem?_eq_none_iff, hlen]
    omega
  rw [fileWord, hnone] at hu
  cases hu

end P4Linux.Mkflt
