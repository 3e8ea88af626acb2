import P4Linux.Mkflt.WidthLink

/-!
# Branches and jumps

* `bImm_putB`, `jImm_putJ` -- what the machine reads out of a patched word: the displacement without
  its lowest bit;
* `reloc_accepted_iff` -- which branches and jumps the loop accepts: the ones in reach whose field is
  in the image table;
* `lands_iff` -- **they land where the source says** if and only if the displacement is even, for
  `check_range` looks at its size alone.
-/

namespace P4Linux.Mkflt

open Lua Rv

variable {w : Nat}

/-! ## 1. The encoders, read back -/

/-- The immediate of a branch or of `jal`, by the type of the relocation. -/
def branchImm (t : Nat) (x : BitVec 32) : BitVec 32 := if t = R.branch then bImm x else jImm x

/-- The bits of the instruction that are no immediate. -/
def branchKeep (t : Nat) : BitVec 32 := if t = R.branch then keepS else keepU

section Encoders

variable (hw : 32 ≤ w) (x v : BitVec w)
include hw

theorem bImm_putB :
    bImm (low (putB x v)) = (((low v).setWidth 13 >>> 1) <<< 1).signExtend 32 := by
  have h : low (putB x v) = (low x &&& 0x1fff07f#32) ||| (((low v >>> 12) &&& 0x1#32) <<< 31) |||
      (((low v >>> 5) &&& 0x3f#32) <<< 25) ||| (((low v >>> 1) &&& 0xf#32) <<< 8) |||
      (((low v >>> 11) &&& 0x1#32) <<< 7) := by
    unfold putB
    rw [low_or, low_or, low_or, low_or, low_and x, low_shl hw, low_shl hw, low_shl hw, low_shl hw,
      low_shr_and v _ 12 (by rw [low_ofNat hw]; decide), low_shr_and v _ 5 (by rw [low_ofNat hw]; decide),
      low_shr_and v _ 1 (by rw [low_ofNat hw]; decide), low_shr_and v _ 11 (by rw [low_ofNat hw]; decide)]
    simp only [low_ofNat hw]
  unfold bImm
  rw [h]
  congr 1
  apply BitVec.eq_of_getLsbD_eq
  intro i hi
  simp only [BitVec.getLsbD_append]
  interval_cases i <;> simp

theorem jImm_putJ :
    jImm (low (putJ x v)) = (((low v).setWidth 21 >>> 1) <<< 1).signExtend 32 := by
  have h : low (putJ x v) = (low x &&& 0xfff#32) ||| (((low v >>> 20) &&& 0x1#32) <<< 31) |||
      (((low v >>> 1) &&& 0x3ff#32) <<< 21) ||| (((low v >>> 11) &&& 0x1#32) <<< 20) |||
      (((low v >>> 12) &&& 0xff#32) <<< 12) := by
    unfold putJ
    rw [low_or, low_or, low_or, low_or, low_and x, low_shl hw, low_shl hw, low_shl hw, low_shl hw,
      low_shr_and v _ 20 (by rw [low_ofNat hw]; decide), low_shr_and v _ 1 (by rw [low_ofNat hw]; decide),
      low_shr_and v _ 11 (by rw [low_ofNat hw]; decide), low_shr_and v _ 12 (by rw [low_ofNat hw]; decide)]
    simp only [low_ofNat hw]
  unfold jImm
  rw [h]
  congr 1
  apply BitVec.eq_of_getLsbD_eq
  intro i hi
  simp only [BitVec.getLsbD_append]
  interval_cases i <;> simp

end Encoders

/-- A number in reach, cut to its bits without the lowest one and extended again, is the even number
    at or below it. -/
theorem toInt_cut {n : Nat} (hn : n = 13 ∨ n = 21) {v : BitVec 32} (h : InReach n v) :
    (((v.setWidth n >>> 1) <<< 1).signExtend 32).toInt = v.toInt / 2 * 2 := by
  have hv := v.isLt
  rcases hn with rfl | rfl
  all_goals
    simp only [InReach, BitVec.toInt_eq_toNat_cond v, Nat.reduceSub] at h
    rw [BitVec.toInt_signExtend_of_le (by omega), BitVec.toInt_eq_toNat_cond,
      BitVec.toInt_eq_toNat_cond v, BitVec.toNat_shiftLeft, BitVec.toNat_ushiftRight,
      BitVec.toNat_setWidth, Nat.shiftLeft_eq, Nat.shiftRight_eq_div_pow]
    split at h <;> split <;> omega

/-! ## 2. What the loop accepts -/

theorem rd32_of_imageWord {m : Image w} {off : BitVec w} (h : (imageWord m off).isSome = true) :
    ∃ x, rd32 m off = .ok x := by
  obtain ⟨x, hx⟩ := Option.isSome_iff_exists.mp h
  unfold imageWord at hx
  obtain ⟨b0, h0, hx⟩ := Option.bind_eq_some_iff.mp hx
  obtain ⟨b1, h1, hx⟩ := Option.bind_eq_some_iff.mp hx
  obtain ⟨b2, h2, hx⟩ := Option.bind_eq_some_iff.mp hx
  obtain ⟨b3, h3, -⟩ := Option.bind_eq_some_iff.mp hx
  unfold rd32
  rw [h0, h1, h2, h3]
  exact ⟨_, rfl⟩

section Entry

variable {host : Host} {syms : List (Symbol w)} {st : LinkState w} {r : Reloc w} {S : BitVec w}

/-- The encoder of a branch or of `jal`. -/
def putBranch (t : Nat) (x v : BitVec w) : BitVec w := if t = R.branch then putB x v else putJ x v

theorem keep_putBranch (hw : 32 ≤ w) (t : Nat) (x v : BitVec w) :
    low (putBranch t x v) &&& branchKeep t = low x &&& branchKeep t := by
  unfold putBranch branchKeep
  split
  · exact keepS_putB hw x v
  · exact keepU_putJ hw x v

theorem reach_cases (t : Nat) : reach t = 13 ∨ reach t = 21 := ite_eq_or_eq _ _ _

/-- What is in reach is the same number in its low word. -/
theorem inReach_low (hw : w = 32 ∨ w = 64) {t : Nat} {v : BitVec w} (h : InReach (reach t) v) :
    (low v).toInt = v.toInt := by
  have hle : (2 : Int) ^ (reach t - 1) ≤ 2 ^ 20 := by
    rcases reach_cases t with e | e
    · rw [e]
      decide
    · rw [e]
  rcases hw with rfl | rfl
  · rw [low_32]
  · unfold InReach at h
    exact toInt_low_of_range (by omega)

theorem branchImm_putBranch (hw : w = 32 ∨ w = 64) {t : Nat} (x : BitVec w) {v : BitVec w}
    (h : InReach (reach t) v) :
    (branchImm t (low (putBranch t x v))).toInt = v.toInt / 2 * 2 := by
  have hlow := inReach_low hw h
  rw [← hlow]
  unfold InReach at h
  rw [← hlow] at h
  unfold branchImm putBranch
  by_cases ht : t = R.branch
  · rw [reach, if_pos ht] at h
    rw [if_pos ht, if_pos ht, bImm_putB (by omega)]
    exact toInt_cut (.inl rfl) h
  · rw [reach, if_neg ht] at h
    rw [if_neg ht, if_neg ht, jImm_putJ (by omega)]
    exact toInt_cut (.inr rfl) h

/-- Both kinds of entry: the check, then the patch. -/
theorem applyReloc_branch (st : LinkState w) (ht : r.rtype = R.branch ∨ r.rtype = R.jal)
    (hS : symaddr host syms r.rsym = .ok S) :
    ∃ what, applyReloc host syms st r = (do
      checkRange (S + r.addend - r.loc) (reach r.rtype) what r.loc
      modify st r.loc (putBranch r.rtype · (S + r.addend - r.loc))) := by
  rcases ht with ht | ht
  · exact ⟨"branch", by simp +decide [applyReloc, putBranch, reach, ht, hS, bind, Except.bind]⟩
  · exact ⟨"jal", by simp +decide [applyReloc, putBranch, reach, ht, hS, bind, Except.bind]⟩

/-- What an accepted entry does. -/
theorem patched_of_ok (hw : w = 32 ∨ w = 64) (ht : r.rtype = R.branch ∨ r.rtype = R.jal)
    (hS : symaddr host syms r.rsym = .ok S) {st' : LinkState w}
    (h : applyReloc host syms st r = .ok st') :
    InReach (reach r.rtype) (S + r.addend - r.loc) ∧ ∃ x, rd32 st.image r.loc = .ok x ∧
      st'.image = wr32 st.image r.loc (putBranch r.rtype x (S + r.addend - r.loc)) := by
  obtain ⟨what, e⟩ := applyReloc_branch st ht hS
  obtain ⟨text, hcheck⟩ := checkRange_eq hw (reach_cases r.rtype) (S + r.addend - r.loc) what r.loc
  rw [e, hcheck] at h
  obtain ⟨_, hr, h⟩ := bind_ok.mp h
  obtain ⟨x, hx, rfl⟩ := modify_ok h
  refine ⟨?_, x, hx, rfl⟩
  by_contra hno
  rw [dieIf, if_pos hno] at hr
  cases hr

/-- **The loop accepts what is in reach**, of a field that is in the image table. -/
theorem reloc_accepted_iff (st : LinkState w) (hw : w = 32 ∨ w = 64) (ht : r.rtype = R.branch ∨ r.rtype = R.jal)
    (hS : symaddr host syms r.rsym = .ok S) :
    (∃ st', applyReloc host syms st r = .ok st') ↔
      InReach (reach r.rtype) (S + r.addend - r.loc) ∧ (imageWord st.image r.loc).isSome = true := by
  constructor
  · rintro ⟨st', h⟩
    obtain ⟨hreach, x, hx, -⟩ := patched_of_ok hw ht hS h
    rw [imageWord_of_rd32 (by omega) hx]
    exact ⟨hreach, rfl⟩
  · rintro ⟨hreach, hword⟩
    obtain ⟨what, e⟩ := applyReloc_branch st ht hS
    obtain ⟨text, hcheck⟩ := checkRange_eq hw (reach_cases r.rtype) (S + r.addend - r.loc) what r.loc
    obtain ⟨x, hx⟩ := rd32_of_imageWord hword
    rw [e, hcheck, dieIf, if_neg (not_not.mpr hreach)]
    exact ⟨_, bind_ok.mpr ⟨(), rfl, bind_ok.mpr ⟨x, hx, rfl⟩⟩⟩

end Entry

/-! ## 3. Where the image table has a field -/

theorem isSome_set {m : Image w} {k : BitVec w} (h : (m k).isSome = true) (i : BitVec w) (b : UInt8) :
    (m.set i b k).isSome = true := by
  unfold Image.set
  split
  · rfl
  · exact h

theorem isSome_wr32 {m : Image w} {k : BitVec w} (h : (m k).isSome = true) (off v : BitVec w) :
    (wr32 m off v k).isSome = true :=
  isSome_set (isSome_set (isSome_set (isSome_set h _ _) _ _) _ _) _ _

theorem isSome_blit {m : Image w} {k a : BitVec w} {bs : List UInt8} (h : (m k).isSome = true) :
    (blit m a bs k).isSome = true := by
  induction bs generalizing m a with
  | nil => exact h
  | cons b bs ih => exact ih (isSome_set h _ _)

/-- A byte that is in the image table stays there. -/
theorem isSome_loop {host : Host} {syms : List (Symbol w)} {rels : List (Reloc w)} {st st' : LinkState w}
    (h : rels.foldlM (applyReloc host syms) st = .ok st') {k : BitVec w}
    (hk : (st.image k).isSome = true) : (st'.image k).isSome = true := by
  refine foldlM_keeps (P := fun t => (t.image k).isSome = true) (fun r _ t t' ht hk => ?_) h hk
  cases applied_of_ok ht with
  | nothing => exact hk
  | call => exact isSome_wr32 (isSome_wr32 hk _ _) _ _
  | _ => exact isSome_wr32 hk _ _

/-- The bytes of a section with contents are there, wrapped or not. -/
theorem isSome_contents (hw : 32 ≤ w) {host : Host} {sec : List (Section w)} {l : Layout w} {m : Image w}
    (h : blitAll host sec l = .ok m) {s : Section w} (hs : s ∈ sec) (hno : s.nobits = false)
    {b : BitVec w} (hb : l.base s.index = some b) {i : Nat} (hi : i < s.size.toNat) :
    (m (b + BitVec.ofNat w (i + 1))).isSome = true := by
  obtain ⟨pre, post, rfl⟩ := List.append_of_mem hs
  unfold blitAll at h
  obtain ⟨m1, -, h⟩ := foldlM_append_ok.mp h
  obtain ⟨m2, hstep, h⟩ := foldlM_cons_ok.mp h
  simp only [blitStep, hb, hno, Bool.false_eq_true, if_false, bind_ok, pure_ok] at hstep
  obtain ⟨c, hc, rfl⟩ := hstep
  obtain ⟨-, hsz, hlt⟩ := sectionBytes_ok hw hc
  refine foldlM_keeps (P := fun m => (m (b + BitVec.ofNat w (i + 1))).isSome = true)
    (fun t _ m m' hm hk => ?_) h ?_
  · unfold blitStep at hm
    split at hm
    · split at hm
      · exact Except.ok.inj hm ▸ hk
      · obtain ⟨bs, -, hm⟩ := bind_ok.mp hm
        rw [← pure_ok.mp hm]
        exact isSome_blit hk
    · exact Except.ok.inj hm ▸ hk
  · rw [blit_at hlt (by omega), List.getElem?_eq_getElem (by omega)]
    rfl

/-- The loop over the relocations comes to the entry `r` in the state `st`. -/
def Comes (host : Host) (d : List UInt8) (obj : Obj w) (st : LinkState w) (r : Reloc w) : Prop :=
  ∃ pre site post, relocSites obj.sec obj.lay = pre ++ site :: post ∧
    relocLoop host d obj.syms pre obj.image = .ok st ∧ readReloc d site = .ok r

theorem Comes.mem {host : Host} {d : List UInt8} {obj : Obj w} {st : LinkState w} {r : Reloc w}
    (h : Comes host d obj st r) : r ∈ relocs d obj := by
  obtain ⟨pre, site, post, hsites, -, hr⟩ := h
  refine List.mem_filterMap.mpr ⟨site, ?_, by rw [hr]; rfl⟩
  rw [hsites]
  exact List.mem_append_right _ List.mem_cons_self

/-- **A field inside its section is in the image table** when the loop comes to it: always in a section
    with contents, and in `.bss` wherever the layout fits. -/
theorem field_present (hw : 32 ≤ w) {host : Host} {d : List UInt8} {obj : Obj w}
    (hload : load host d = .ok obj) {st : LinkState w} {r : Reloc w} (hcome : Comes host d obj st r)
    {s : Section w} (hs : s ∈ obj.sec) (hidx : s.index = r.target)
    (hin : r.roff.toNat + 4 ≤ s.size.toNat) (hcase : s.nobits = false ∨ Fits obj.sec) :
    (imageWord st.image r.loc).isSome = true := by
  obtain ⟨b, hb, hloc⟩ := loc_of_mem_relocs hcome.mem
  rw [← hidx] at hb
  obtain ⟨-, e, -, -, hlay, hblit, -⟩ := load_ok hload
  have hkey : ∀ i < 4, (obj.image (r.loc + BitVec.ofNat w (i + 1))).isSome = true := by
    intro i hi
    have e : r.loc + BitVec.ofNat w (i + 1) = b + BitVec.ofNat w (r.roff.toNat + i + 1) := by
      rw [hloc, BitVec.add_assoc, Nat.add_assoc, BitVec.ofNat_add r.roff.toNat, BitVec.ofNat_toNat,
        BitVec.setWidth_eq]
    rw [e]
    cases hno : s.nobits with
    | false => exact isSome_contents hw hblit hs hno hb (by omega)
    | true =>
      have hfit : Fits obj.sec := hcase.resolve_left (by rw [hno]; exact Bool.noConfusion)
      rw [blitAll_zero hw (hlay ▸ tiled_layout hw hfit (nodup_of_load hload)) (nodup_of_load hload) hblit hs
        hno hb ⟨r.roff.toNat + i, by omega, rfl⟩]
      rfl
  obtain ⟨pre, site, post, -, hloop, -⟩ := hcome
  have hst : ∀ i < 4, (st.image (r.loc + BitVec.ofNat w (i + 1))).isSome = true := fun i hi =>
    isSome_loop (relocLoop_apply hloop) (hkey i hi)
  obtain ⟨b0, h0⟩ := Option.isSome_iff_exists.mp (hst 0 (by omega))
  obtain ⟨b1, h1⟩ := Option.isSome_iff_exists.mp (hst 1 (by omega))
  obtain ⟨b2, h2⟩ := Option.isSome_iff_exists.mp (hst 2 (by omega))
  obtain ⟨b3, h3⟩ := Option.isSome_iff_exists.mp (hst 3 (by omega))
  unfold imageWord
  erw [h0, h1, h2, h3]
  rfl

/-! ## 4. Where they land -/

/-- What the script owes a branch or a jump with the displacement `v`. -/
structure Lands (host : Host) (stack : BitVec w) (d : List UInt8) (obj : Obj w) (st : LinkState w)
    (r : Reloc w) (v : BitVec w) : Prop where
  accepts : (∃ st', applyReloc host obj.syms st r = .ok st') ↔ 2 ∣ v.toInt ∧ InReach (reach r.rtype) v
  patches : ∀ st', applyReloc host obj.syms st r = .ok st' → ∃ x0 x,
    imageWord st.image r.loc = some x0 ∧ imageWord st'.image r.loc = some x ∧
      (branchImm r.rtype x).toInt = v.toInt ∧ x &&& branchKeep r.rtype = x0 &&& branchKeep r.rtype
  exits : ¬ (2 ∣ v.toInt ∧ InReach (reach r.rtype) v) → ∃ e, mkflt w host stack d = .error e

/-- A run that came to its end has accepted every entry it came to. -/
theorem accepted_of_mkflt {host : Host} {stack : BitVec w} {d out : List UInt8} {obj : Obj w}
    (hload : load host d = .ok obj) {st : LinkState w} {r : Reloc w} (hcome : Comes host d obj st r)
    (h : mkflt w host stack d = .ok out) : ∃ st', applyReloc host obj.syms st r = .ok st' := by
  obtain ⟨obj', st', -, hload', hloop, -, -⟩ := mkflt_ok h
  obtain rfl := Except.ok.inj (hload'.symm.trans hload)
  obtain ⟨pre, site, post, hsites, hpre, hr⟩ := hcome
  unfold relocLoop at hloop hpre
  rw [hsites] at hloop
  obtain ⟨st1, h1, hloop⟩ := foldlM_append_ok.mp hloop
  obtain rfl := Except.ok.inj (h1.symm.trans hpre)
  obtain ⟨st2, h2, -⟩ := foldlM_cons_ok.mp hloop
  obtain ⟨r', hr', h2⟩ := bind_ok.mp h2
  obtain rfl := Except.ok.inj (hr'.symm.trans hr)
  exact ⟨st2, h2⟩

/-- **Branches and jumps land where the source says** if and only if a displacement in reach is even.
    The field has to be in the image table for that, which it is but in a `.bss` that has wrapped: there
    the script stops for the missing bytes, and only an odd displacement was to be refused. -/
theorem lands_iff (hw : w = 32 ∨ w = 64) {host : Host} {stack : BitVec w} {d : List UInt8} {obj : Obj w}
    (hload : load host d = .ok obj) {st : LinkState w} {r : Reloc w} (hcome : Comes host d obj st r)
    (ht : r.rtype = R.branch ∨ r.rtype = R.jal) {s : Section w} (hs : s ∈ obj.sec)
    (hidx : s.index = r.target) (hin : r.roff.toNat + 4 ≤ s.size.toNat) {S : BitVec w}
    (hS : symaddr host obj.syms r.rsym = .ok S) :
    Lands host stack d obj st r (S + r.addend - r.loc) ↔
      (InReach (reach r.rtype) (S + r.addend - r.loc) → (2 ∣ (S + r.addend - r.loc).toInt ↔
        (s.nobits = false ∨ Fits obj.sec ∨ (imageWord st.image r.loc).isSome = true))) := by
  have hiff := reloc_accepted_iff st hw ht hS
  have hpresent : s.nobits = false ∨ Fits obj.sec ∨ (imageWord st.image r.loc).isSome = true ↔
      (imageWord st.image r.loc).isSome = true := by
    refine ⟨?_, fun hword => .inr (.inr hword)⟩
    rintro (hno | hfit | hword)
    · exact field_present (by omega) hload hcome hs hidx hin (.inl hno)
    · exact field_present (by omega) hload hcome hs hidx hin (.inr hfit)
    · exact hword
  rw [hpresent]
  constructor
  · intro h hreach
    constructor
    · intro heven
      exact (hiff.mp (h.accepts.mpr ⟨heven, hreach⟩)).2
    · intro hword
      exact (h.accepts.mp (hiff.mpr ⟨hreach, hword⟩)).1
  · intro h
    have hacc : (∃ st', applyReloc host obj.syms st r = .ok st') ↔
        2 ∣ (S + r.addend - r.loc).toInt ∧ InReach (reach r.rtype) (S + r.addend - r.loc) :=
      hiff.trans ⟨fun ha => ⟨(h ha.1).mpr ha.2, ha.1⟩, fun ha => ⟨ha.2, (h ha.2).mp ha.1⟩⟩
    refine ⟨hacc, fun st' hst => ?_, fun hno => ?_⟩
    · obtain ⟨hreach, x, hx, himage⟩ := patched_of_ok hw ht hS hst
      refine ⟨low x, _, imageWord_of_rd32 (by omega) hx, himage ▸ imageWord_wr32 (by omega) _ _ _, ?_,
        keep_putBranch (by omega) _ _ _⟩
      rw [branchImm_putBranch hw x hreach, Int.ediv_mul_cancel (hacc.mp ⟨st', hst⟩).1]
    · cases hrun : mkflt w host stack d with
      | error e => exact ⟨e, rfl⟩
      | ok out => exact absurd (hacc.mp (accepted_of_mkflt hload hcome hrun)) hno

/-- `loop: nop; beq zero, zero, loop + addend`, in four bytes of `nop` and four of the branch. -/
def branchProgram (addend : Nat) : List Elf.Sec :=
  Elf.program [0x13, 0, 0, 0, 0x63, 0, 0, 0] [Elf.rela 4 1 R.branch addend] [Elf.sym 0 0, Elf.sym 0 1] []

/-- An object that is accepted and has one entry, of one displacement. -/
theorem branchProgram_entry (addend : Nat) (v : Int)
    (h : ((mkflt 32 (.ofSections (branchProgram addend)) 8192 (Elf.object (branchProgram addend))).toOption.any
      fun _ => (load (w := 32) (.ofSections (branchProgram addend))
        (Elf.object (branchProgram addend))).toOption.any fun obj => match relocSites obj.sec obj.lay with
        | [site] => (readReloc (Elf.object (branchProgram addend)) site).toOption.any fun r =>
          decide (r.rtype = R.branch) && decide (r.roff.toNat = 4) && obj.sec.any (fun s =>
            decide (s.index = r.target) && decide (8 ≤ s.size.toNat) && decide (s.nobits = false)) &&
          (symaddr (.ofSections (branchProgram addend)) obj.syms r.rsym).toOption.any fun S =>
            decide ((S + r.addend - r.loc).toInt = v)
        | _ => false) = true) :
    ∃ (obj : Obj 32) (st : LinkState 32) (r : Reloc 32) (s : Section 32) (S : BitVec 32) (out : List UInt8),
      mkflt 32 (.ofSections (branchProgram addend)) 8192 (Elf.object (branchProgram addend)) = .ok out ∧
      load (.ofSections (branchProgram addend)) (Elf.object (branchProgram addend)) = .ok obj ∧
      Comes (.ofSections (branchProgram addend)) (Elf.object (branchProgram addend)) obj st r ∧
      r.rtype = R.branch ∧ s ∈ obj.sec ∧ s.index = r.target ∧ r.roff.toNat + 4 ≤ s.size.toNat ∧
      s.nobits = false ∧ symaddr (.ofSections (branchProgram addend)) obj.syms r.rsym = .ok S ∧
      (S + r.addend - r.loc).toInt = v := by
  obtain ⟨obj, out, hout, hload, h⟩ := exists_linked _ _ _ h
  split at h
  · rename_i site hsites
    obtain ⟨r, hr, h⟩ := exists_ok h
    simp only [Bool.and_eq_true, decide_eq_true_eq, List.any_eq_true] at h
    obtain ⟨⟨⟨ht, hoff⟩, s, hs, ⟨hidx, hsize⟩, hno⟩, h⟩ := h
    obtain ⟨S, hS, hv⟩ := exists_ok h
    exact ⟨obj, ⟨obj.image, fun _ => none⟩, r, s, S, out, hout, hload, ⟨[], site, [], hsites, rfl, hr⟩, ht, hs, hidx,
      by omega, hno, hS, of_decide_eq_true hv⟩
  · cases h

/-- Back to the `nop`, four bytes: it lands. -/
theorem lands_back : ∃ (obj : Obj 32) (st : LinkState 32) (r : Reloc 32) (v : BitVec 32),
    v.toInt = -4 ∧ Comes (.ofSections (branchProgram 0)) (Elf.object (branchProgram 0)) obj st r ∧
    Lands (.ofSections (branchProgram 0)) 8192 (Elf.object (branchProgram 0)) obj st r v := by
  obtain ⟨obj, st, r, s, S, -, -, hload, hcome, ht, hs, hidx, hin, hno, hS, hv⟩ :=
    branchProgram_entry 0 (-4) (by decide +kernel)
  refine ⟨obj, st, r, _, hv, hcome, (lands_iff (.inl rfl) hload hcome (.inl ht) hs hidx hin hS).mpr ?_⟩
  intro _
  rw [hv]
  exact ⟨fun _ => .inl hno, fun _ => by decide⟩

/-- One byte further: the displacement -3 is accepted, and becomes -4. -/
theorem not_lands_odd : ∃ (obj : Obj 32) (st : LinkState 32) (r : Reloc 32) (v : BitVec 32) (out : List UInt8),
    v.toInt = -3 ∧ Comes (.ofSections (branchProgram 1)) (Elf.object (branchProgram 1)) obj st r ∧
    mkflt 32 (.ofSections (branchProgram 1)) 8192 (Elf.object (branchProgram 1)) = .ok out ∧
    ¬ Lands (.ofSections (branchProgram 1)) 8192 (Elf.object (branchProgram 1)) obj st r v := by
  obtain ⟨obj, st, r, s, S, out, hout, hload, hcome, ht, hs, hidx, hin, hno, hS, hv⟩ :=
    branchProgram_entry 1 (-3) (by decide +kernel)
  refine ⟨obj, st, r, _, out, hv, hcome, hout, fun h => ?_⟩
  have heven := (h.accepts.mp (accepted_of_mkflt hload hcome hout)).1
  rw [hv] at heven
  omega

end P4Linux.Mkflt
