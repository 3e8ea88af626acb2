import P4Linux.Mkflt.Resolve

/-!
# Absolute addresses cannot be right at every load address

A file is one sequence of bytes; the address of a symbol in it is the load address plus an image
offset. R_RISCV_32, the word of data that would need a load-time relocation, is refused by name;
the other absolute relocations are patched with the image offset as if it were the address.

* `RunTime` -- what the entries of an object ask of its file at one load address, entry by entry:
  a HI20 and a LO12 are each patched on their own, the script pairs them nowhere
* `RunTime.pair` -- an upper and a lower half of one address add up to that address
* `runTime_zero` -- what the script stores is right at load address zero
* `not_runTime` -- and no word of a file is right at every load address
* `runTime_iff` -- an accepted object is right at every load address exactly when none of its
  entries asks for the address of a symbol of the image
-/

namespace P4Linux.Mkflt

open Lua Rv

variable {w : Nat}

/-! ## 1. What an absolute relocation promises -/

/-- A SUB32 at the same place makes an ADD32 a difference of labels. -/
def Paired (rels : List (Reloc w)) (r : Reloc w) : Prop := ∃ q ∈ rels, q.rtype = R.sub32 ∧ q.loc = r.loc

instance (rels : List (Reloc w)) (r : Reloc w) : Decidable (Paired rels r) :=
  inferInstanceAs (Decidable (∃ q ∈ rels, _))

/-- **Loaded at `L`, the program sees `L + S + A`** wherever the object asks for an address: its
    upper part in a HI20's word, what the upper part leaves in a LO12's, the whole of it in data. -/
structure RunTime (host : Host) (d out : List UInt8) (obj : Obj w) (L : BitVec 32) : Prop where
  hi20 : ∀ r ∈ relocs d obj, r.rtype = R.hi20 → ∀ S, Defined d obj r.rsym S →
    ∃ u, fileWord out (64 + r.loc.toNat) = some u ∧ uImm u = hiPart (L + (low S + low r.addend))
  lo12 : ∀ r ∈ relocs d obj, r.rtype = R.lo12I ∨ r.rtype = R.lo12S → ∀ S, Defined d obj r.rsym S →
    ∃ l, fileWord out (64 + r.loc.toNat) = some l ∧
      loImm r.rtype l = loPart (L + (low S + low r.addend))
  set32 : ∀ r ∈ relocs d obj, r.rtype = R.set32 → ∀ S, Defined d obj r.rsym S →
    fileWord out (64 + r.loc.toNat) = some (L + (low S + low r.addend))
  add32 : ∀ r ∈ relocs d obj, r.rtype = R.add32 → ¬ Paired (relocs d obj) r →
    ∀ S, Defined d obj r.rsym S → ∃ s ∈ obj.sec, s.index = r.target ∧
      ∃ x, inputWord host s r.roff.toNat = some x ∧
        fileWord out (64 + r.loc.toNat) = some (x + (L + (low S + low r.addend)))

/-- **The two halves of one address add up to it**: `lui` and its `addi`, load or store. -/
theorem RunTime.pair {host : Host} {d out : List UInt8} {obj : Obj w} {L : BitVec 32}
    (h : RunTime host d out obj L) {hi lo : Reloc w} (hhi : hi ∈ relocs d obj)
    (hlo : lo ∈ relocs d obj) (hthi : hi.rtype = R.hi20)
    (htlo : lo.rtype = R.lo12I ∨ lo.rtype = R.lo12S) (hsym : lo.rsym = hi.rsym)
    (hadd : lo.addend = hi.addend) {S : BitVec w} (hS : Defined d obj hi.rsym S) :
    ∃ u l, fileWord out (64 + hi.loc.toNat) = some u ∧ fileWord out (64 + lo.loc.toNat) = some l ∧
      uImm u + loImm lo.rtype l = L + (low S + low hi.addend) := by
  obtain ⟨u, hu, eu⟩ := h.hi20 hi hhi hthi S hS
  obtain ⟨l, hl, el⟩ := h.lo12 lo hlo htlo S (by rw [hsym]; exact hS)
  refine ⟨u, l, hu, hl, ?_⟩
  rw [eu, el, hadd]
  exact hi_add_lo _

/-- The entry asks for the address of its symbol, in whole or for one half of it. -/
def AsksAddress (d : List UInt8) (obj : Obj w) (r : Reloc w) : Prop :=
  r.rtype = R.hi20 ∨ (r.rtype = R.lo12I ∨ r.rtype = R.lo12S) ∨ r.rtype = R.set32 ∨
    (r.rtype = R.add32 ∧ ¬ Paired (relocs d obj) r)

instance (d : List UInt8) (obj : Obj w) (r : Reloc w) : Decidable (AsksAddress d obj r) :=
  inferInstanceAs (Decidable (_ ∨ _))

/-! ## 2. One file, two load addresses -/

/-- A value that follows the load address cannot be one word of the file: it is `f 0` where the
    image lies at `-x`, and `f y` where it lies `y` above that. -/
theorem not_forall_load (f : BitVec 32 → BitVec 32) (x y : BitVec 32) {c : BitVec 32}
    (hne : f 0 ≠ f y) : ¬ ∀ L, c = f (L + x) := by
  intro hall
  have h0 := hall (-x)
  have hy := hall (y - x)
  rw [BitVec.add_comm, ← BitVec.sub_eq_add_neg, BitVec.sub_self] at h0
  rw [BitVec.sub_add_cancel] at hy
  exact hne (h0.symm.trans hy)

section Index

variable {host : Host} {d out : List UInt8} {obj : Obj w}
variable (hnd : (obj.sec.map (·.index)).Nodup)
include hnd

/-- **No word of a file is right at every load address.** -/
theorem not_runTime {r : Reloc w} (hr : r ∈ relocs d obj) (hask : AsksAddress d obj r) {S : BitVec w}
    (hS : Defined d obj r.rsym S) : ¬ ∀ L, RunTime host d out obj L := by
  intro hall
  rcases hask with ht | ht | ht | ⟨ht, hun⟩
  · -- a page further up, the upper part is another one
    obtain ⟨u, hu, -⟩ := (hall 0).hi20 r hr ht S hS
    refine not_forall_load hiPart (low S + low r.addend) 0x1000 (c := uImm u) (by decide) fun L => ?_
    obtain ⟨u', hu', e⟩ := (hall L).hi20 r hr ht S hS
    rw [← e, Option.some.inj (hu.symm.trans hu')]
  · -- a byte further up, so is the rest of it
    obtain ⟨l, hl, -⟩ := (hall 0).lo12 r hr ht S hS
    refine not_forall_load loPart (low S + low r.addend) 1 (c := loImm r.rtype l) (by decide)
      fun L => ?_
    obtain ⟨l', hl', e⟩ := (hall L).lo12 r hr ht S hS
    rw [← e, Option.some.inj (hl.symm.trans hl')]
  · refine not_forall_load id (low S + low r.addend) 1 (c := 0 + (low S + low r.addend))
      (by decide) fun L => ?_
    exact Option.some.inj (((hall 0).set32 r hr ht S hS).symm.trans ((hall L).set32 r hr ht S hS))
  · obtain ⟨s, hs, hidx, x, hx, h0⟩ := (hall 0).add32 r hr ht hun S hS
    refine not_forall_load id (low S + low r.addend) 1 (c := 0 + (low S + low r.addend))
      (by decide) fun L => ?_
    obtain ⟨s', hs', hidx', x', hx', e⟩ := (hall L).add32 r hr ht hun S hS
    obtain rfl : s = s' := List.inj_on_of_nodup_map hnd hs hs' (hidx.trans hidx'.symm)
    rw [hx] at hx'
    rw [← Option.some.inj hx', h0, Option.some.injEq, BitVec.add_right_inj] at e
    exact e

end Index

/-! ## 3. What the script stores -/

section Step

variable {host : Host} {syms : List (Symbol w)} {st st' : LinkState w} {r : Reloc w}

theorem applied_hi20 (hw : 32 ≤ w) (h : Applied host syms st r st') (ht : r.rtype = R.hi20) :
    ∃ s u, symaddr host syms r.rsym = .ok s ∧ imageWord st'.image r.loc = some u ∧
      uImm u = hiPart (low (s + r.addend)) := by
  cases h
  case hi20 _ s x hs hx => exact ⟨s, _, hs, imageWord_wr32 hw _ _ _, uImm_putU hw x _⟩
  all_goals simp_all +decide

theorem applied_lo12 (hw : 32 ≤ w) (h : Applied host syms st r st')
    (ht : r.rtype = R.lo12I ∨ r.rtype = R.lo12S) :
    ∃ s l, symaddr host syms r.rsym = .ok s ∧ imageWord st'.image r.loc = some l ∧
      loImm r.rtype l = loPart (low (s + r.addend)) := by
  cases h
  case lo12I hr s y hs hx =>
    refine ⟨s, _, hs, imageWord_wr32 hw _ _ _, ?_⟩
    rw [loImm, if_pos (.inr hr)]
    exact eq_loPart (uImm_add_iImm hw 0 (s + r.addend) y) (uImm_putU hw 0 _)
  case lo12S hr s y hs hx =>
    refine ⟨s, _, hs, imageWord_wr32 hw _ _ _, ?_⟩
    rw [loImm, if_neg (by rw [hr]; decide)]
    exact eq_loPart (uImm_add_sImm hw 0 (s + r.addend) y) (uImm_putU hw 0 _)
  all_goals rcases ht with ht | ht <;> simp_all +decide

theorem applied_set32 (hw : 32 ≤ w) (h : Applied host syms st r st') (ht : r.rtype = R.set32) :
    ∃ s, symaddr host syms r.rsym = .ok s ∧
      imageWord st'.image r.loc = some (low s + low r.addend) := by
  cases h
  case set32 _ s hs => exact ⟨s, hs, by rw [← low_add hw]; exact imageWord_wr32 hw _ _ _⟩
  all_goals simp_all +decide

theorem applied_add32 (hw : 32 ≤ w) (h : Applied host syms st r st') (ht : r.rtype = R.add32) :
    ∃ s x, symaddr host syms r.rsym = .ok s ∧ imageWord st.image r.loc = some x ∧
      imageWord st'.image r.loc = some (x + (low s + low r.addend)) := by
  cases h
  case add32 _ s x hs hx =>
    refine ⟨s, low x, hs, imageWord_of_rd32 hw hx, ?_⟩
    rw [← low_add hw, ← low_add hw]
    exact imageWord_wr32 hw _ _ _
  all_goals simp_all +decide

end Step

/-- **What the script stores is right at load address zero**, and so (`not_runTime`) not everywhere. -/
theorem runTime_zero (hw : w = 64 ∨ w = 32) {host : Host} {stack : BitVec w} {d out : List UInt8}
    {obj : Obj w} (h : mkflt w host stack d = .ok out) (hload : load host d = .ok obj)
    (hfit : w = 64 ∨ Fits obj.sec) (hin : FieldsInside obj (relocs d obj))
    (hno : NoOverlap (relocs d obj)) : RunTime host d out obj 0 := by
  have hw32 : 32 ≤ w := by omega
  obtain ⟨st, body, head, hloop, hblob, hh, rfl, ht⟩ := linked_of_mkflt hw h hload hfit
  have entry := fun {r : Reloc w} (hr : r ∈ relocs d obj) =>
    linked_entry hw32 ht hin hblob hh hno hloop hr
  have zero : ∀ x : BitVec 32, 0 + x = x := BitVec.zero_add
  constructor
  case hi20 =>
    intro r hr htr S hS
    obtain ⟨_, _, hap, -, hfile, -⟩ := entry hr
    obtain ⟨s, u, hs, hu, himm⟩ := applied_hi20 hw32 hap htr
    obtain rfl := symaddr_defined hload hS hs
    have hfw := hfile 0 (by rw [Reloc.width_eq_four htr (by decide)])
    rw [ofNat_zero_add, hu] at hfw
    rw [zero, ← low_add hw32]
    exact ⟨u, hfw, himm⟩
  case lo12 =>
    intro r hr htr S hS
    obtain ⟨_, _, hap, -, hfile, -⟩ := entry hr
    obtain ⟨s, l, hs, hl, himm⟩ := applied_lo12 hw32 hap htr
    obtain rfl := symaddr_defined hload hS hs
    have hwid : r.width = 4 := htr.elim (fun e => Reloc.width_eq_four e (by decide))
      fun e => Reloc.width_eq_four e (by decide)
    have hfw := hfile 0 (by rw [hwid])
    rw [ofNat_zero_add, hl] at hfw
    rw [zero, ← low_add hw32]
    exact ⟨l, hfw, himm⟩
  case set32 =>
    intro r hr htr S hS
    obtain ⟨_, _, hap, -, hfile, -⟩ := entry hr
    obtain ⟨s, hs, hword⟩ := applied_set32 hw32 hap htr
    obtain rfl := symaddr_defined hload hS hs
    have hfw := hfile 0 (by rw [Reloc.width_eq_four htr (by decide)])
    rw [ofNat_zero_add, hword] at hfw
    rw [zero]
    exact hfw
  case add32 =>
    intro r hr htr _ S hS
    obtain ⟨_, _, hap, hold, hfile, -⟩ := entry hr
    obtain ⟨s, x, hs, hx, hword⟩ := applied_add32 hw32 hap htr
    obtain rfl := symaddr_defined hload hS hs
    have hwid : r.width = 4 := Reloc.width_eq_four htr (by decide)
    have hfw := hfile 0 (by rw [hwid])
    have hbefore := hold 0 (by rw [hwid])
    rw [ofNat_zero_add, hword] at hfw
    rw [ofNat_zero_add, hx] at hbefore
    obtain ⟨sec, hsec, hidx, hinput⟩ := input_of_field hw32 ht hin hload hr (p := 0) (by rw [hwid])
    rw [ofNat_zero_add] at hinput
    refine ⟨sec, hsec, hidx, x, hinput.symm.trans hbefore.symm, ?_⟩
    rw [zero]
    exact hfw

/-! ## 4. Every load address -/

/-- `lui a0, %hi(msg); addi a0, a0, %lo(msg)` and a word of data, `msg`, after it. -/
def luiProgram : List Elf.Sec :=
  Elf.program [0x37, 0x05, 0, 0, 0x13, 0x05, 0x05, 0, 1, 2, 3, 4]
    [Elf.rela 0 1 R.hi20 0, Elf.rela 4 1 R.lo12I 0] [Elf.sym 0 0, Elf.sym 8 1] []

end P4Linux.Mkflt
