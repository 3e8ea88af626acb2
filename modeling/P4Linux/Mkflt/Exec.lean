import P4Linux.Lib.Riscv
import P4Linux.Mkflt.Absolute
import P4Linux.Mkflt.Branch

/-!
# A linked program runs as its source says

What the instructions of an object mean is said here without the output file: an instruction word is the
object's own, and where an entry covers it, its immediate is what the psABI's formula makes of the symbol's
address in the loaded program (`Operand`, `Says`). `linked_runs` is then the **preservation of meaning**: a hart
that has the output file in memory, at whatever load address, takes the very steps of the source program.

* `runAddress` -- where a symbol is in the loaded program;
* `Relocatable` -- PC-relative entries against symbols of the image, absolute ones against absolute symbols,
  even distances: what position independent code is made of;
* `spells_of_linked` -- every instruction of the source is in the memory, immediate included.
-/

namespace P4Linux.Mkflt

open Lua Rv

variable {w : Nat}

/-! ## 1. What the source says -/

/-- The image offset of a symbol of a placed section. -/
def definedAt? (d : List UInt8) (obj : Obj w) (k : Nat) : Option (BitVec w) :=
  match symbolEntry d obj.sec k with
  | .ok (shndx, value) =>
    if shndx = BitVec.ofNat w shnAbs ∨ shndx = BitVec.ofNat w shnUndef then none
    else (obj.lay.at? shndx).map (· + value)
  | .error _ => none

def absoluteAt? (d : List UInt8) (obj : Obj w) (k : Nat) : Option (BitVec w) :=
  match symbolEntry d obj.sec k with
  | .ok (shndx, value) => if shndx = BitVec.ofNat w shnAbs then some value else none
  | .error _ => none

theorem defined_of_definedAt? {d : List UInt8} {obj : Obj w} {k : Nat} {S : BitVec w}
    (h : definedAt? d obj k = some S) : Defined d obj k S := by
  unfold definedAt? at h
  split at h
  · rename_i shndx value hentry
    split at h
    · cases h
    · rename_i hne
      obtain ⟨b, hb, rfl⟩ := Option.map_eq_some_iff.mp h
      rw [not_or] at hne
      exact ⟨shndx, value, b, hentry, hne.1, hne.2, hb, rfl⟩
  · cases h

theorem address_of_absoluteAt? {d : List UInt8} {obj : Obj w} {k : Nat} {v : BitVec w}
    (h : absoluteAt? d obj k = some v) : Address d obj k v := by
  unfold absoluteAt? at h
  split at h
  · rename_i shndx value hentry
    split at h
    · rename_i habs
      cases h
      exact ⟨shndx, _, hentry, by rw [symbolAddr, if_pos habs]⟩
    · cases h
  · cases h

/-- A symbol is in one of the two kinds at most. -/
theorem absoluteAt?_of_defined {d : List UInt8} {obj : Obj w} {k : Nat} {S : BitVec w}
    (h : definedAt? d obj k = some S) : absoluteAt? d obj k = none := by
  unfold definedAt? at h
  unfold absoluteAt?
  split at h
  · rename_i shndx value hentry
    split at h
    · cases h
    · rename_i hne
      rw [not_or] at hne
      exact if_neg hne.1
  · rfl

/-- **The address of symbol `k`** in the program that is loaded at `L`. -/
def runAddress (d : List UInt8) (obj : Obj w) (L : BitVec 32) (k : Nat) : Option (BitVec 32) :=
  match definedAt? d obj k with
  | some S => some (L + low S)
  | none => (absoluteAt? d obj k).map low

section Source

variable (d : List UInt8) (obj : Obj w) (T : Nat → Bool) (L : BitVec 32)

/-- What the psABI makes of entry `r` for the instruction at byte `p` of its field: the format of the immediate
    and its value. `S + A - P` and its halves, `S + A` and its halves; a PC-relative lower half has the value
    of the upper half at its label. -/
inductive Operand (r : Reloc w) : Nat → Rv.Format → BitVec 32 → Prop where
  | pcrelHi20 (ht : r.rtype = R.pcrelHi20) {S : BitVec 32} (hS : runAddress d obj L r.rsym = some S) :
      Operand r 0 .u (hiPart (S + low r.addend - (L + low r.loc)))
  | pcrelLo12 {f : Rv.Format} (ht : r.rtype = R.pcrelLo12I ∧ f = .i ∨ r.rtype = R.pcrelLo12S ∧ f = .s)
      {q : Reloc w} (hq : q ∈ relocs d obj) (htq : q.rtype = R.pcrelHi20) (hT : T q.target = true)
      (hlabel : runAddress d obj L r.rsym = some (L + low q.loc)) {S : BitVec 32}
      (hS : runAddress d obj L q.rsym = some S) :
      Operand r 0 f (loPart (S + low q.addend - (L + low q.loc)))
  | hi20 (ht : r.rtype = R.hi20) {S : BitVec 32} (hS : runAddress d obj L r.rsym = some S) :
      Operand r 0 .u (hiPart (S + low r.addend))
  | lo12 {f : Rv.Format} (ht : r.rtype = R.lo12I ∧ f = .i ∨ r.rtype = R.lo12S ∧ f = .s) {S : BitVec 32}
      (hS : runAddress d obj L r.rsym = some S) : Operand r 0 f (loPart (S + low r.addend))
  | branch (ht : r.rtype = R.branch) {S : BitVec 32} (hS : runAddress d obj L r.rsym = some S) :
      Operand r 0 .b (S + low r.addend - (L + low r.loc))
  | jal (ht : r.rtype = R.jal) {S : BitVec 32} (hS : runAddress d obj L r.rsym = some S) :
      Operand r 0 .j (S + low r.addend - (L + low r.loc))
  | callHi (ht : r.rtype = R.call ∨ r.rtype = R.callPlt) {S : BitVec 32}
      (hS : runAddress d obj L r.rsym = some S) :
      Operand r 0 .u (hiPart (S + low r.addend - (L + low r.loc)))
  | callLo (ht : r.rtype = R.call ∨ r.rtype = R.callPlt) {S : BitVec 32}
      (hS : runAddress d obj L r.rsym = some S) :
      Operand r 4 .i (loPart (S + low r.addend - (L + low r.loc)))

/-- **The instructions of the source**, in the sections `T`: the words no entry touches as they are, the others
    with the operand their entry gives them. -/
inductive Says (host : Host) : Code where
  | plain {s : Section w} (hs : s ∈ obj.sec) (hT : T s.index = true) {b : BitVec w}
      (hb : obj.lay.base s.index = some b) {off : Nat} (hoff : off + 4 ≤ s.size.toNat) {x : BitVec 32}
      (hx : inputWord host s off = some x) {o : Op} (ho : opOf x = some o)
      (hfree : ∀ r ∈ relocs d obj, r.target = s.index →
        r.width = 0 ∨ r.roff.toNat + r.width ≤ off ∨ off + 4 ≤ r.roff.toNat) :
      Says host (L + low b + BitVec.ofNat 32 off) o (o.format.imm x)
  | entry {r : Reloc w} (hr : r ∈ relocs d obj) (hT : T r.target = true) {s : Section w} (hs : s ∈ obj.sec)
      (hidx : s.index = r.target) {p : Nat} {x : BitVec 32}
      (hx : inputWord host s (r.roff.toNat + p) = some x) {o : Op} (ho : opOf x = some o) {v : BitVec 32}
      (hv : Operand d obj T L r p o.format v) : Says host (L + low r.loc + BitVec.ofNat 32 p) o v

/-- The bytes of the instructions. -/
def Text (host : Host) (a : BitVec 32) : Prop :=
  ∃ pc o v, Says d obj T L host pc o v ∧ ∃ k < 4, a = pc + BitVec.ofNat 32 k

/-- What position independent code asks of its entries. -/
def Relocatable : Prop := ∀ r ∈ relocs d obj, T r.target = true →
  (r.rtype ∈ [R.pcrelHi20, R.pcrelLo12I, R.pcrelLo12S, R.branch, R.jal, R.call, R.callPlt] →
    (definedAt? d obj r.rsym).isSome = true) ∧
  (r.rtype ∈ [R.hi20, R.lo12I, R.lo12S] → (absoluteAt? d obj r.rsym).isSome = true) ∧
  (r.rtype = R.branch ∨ r.rtype = R.jal →
    ∀ S ∈ definedAt? d obj r.rsym, 2 ∣ (S + r.addend - r.loc).toInt)

instance : Decidable (Relocatable d obj T) := inferInstanceAs (Decidable (∀ r ∈ relocs d obj, _))

/-- No two entries of the sections `T` patch a common byte. -/
def TextApart : Prop :=
  (relocs d obj).Pairwise fun a b => T a.target = true → T b.target = true → Apart a b

instance : Decidable (TextApart d obj T) :=
  inferInstanceAs (Decidable ((relocs d obj).Pairwise fun a b => T a.target = true → T b.target = true → Apart a b))

end Source

/-- The image is in memory from `L` on, all of it in the address space. -/
structure Loaded (out : List UInt8) (obj : Obj w) (L : BitVec 32) (m : BitVec 32 → UInt8) : Prop where
  fits : obj.lay.imageLen.toNat ≤ 2 ^ 32
  bytes : ∀ i < obj.lay.imageLen.toNat, out[64 + i]? = some (m (L + BitVec.ofNat 32 i))

/-! ## 2. The operands the script writes -/

section Step

variable {host : Host} {syms : List (Symbol w)} {st st' : LinkState w} {r : Reloc w}

theorem applied_loImm (hw : 32 ≤ w) (h : Applied host syms st r st')
    (ht : r.rtype = R.pcrelLo12I ∨ r.rtype = R.pcrelLo12S) :
    ∃ site v l, symaddr host syms r.rsym = .ok site ∧ st.hi20At site = some v ∧
      imageWord st'.image r.loc = some l ∧ loImm r.rtype l = loPart (low v) := by
  obtain ⟨site, v, l, hs, hv, hl, hsum⟩ := applied_pcrelLo12 hw h ht
  exact ⟨site, v, l, hs, hv, hl, eq_loPart (hsum 0) (uImm_putU hw 0 v)⟩

theorem applied_branchImm (hw : w = 32 ∨ w = 64) (h : Applied host syms st r st')
    (ht : r.rtype = R.branch ∨ r.rtype = R.jal) :
    ∃ s x, symaddr host syms r.rsym = .ok s ∧ imageWord st'.image r.loc = some x ∧
      (2 ∣ (s + r.addend - r.loc).toInt → branchImm r.rtype x = low (s + r.addend - r.loc)) := by
  have hcut : ∀ {s : BitVec w} {what : String} {bits : Nat}, bits = reach r.rtype →
      checkRange (s + r.addend - r.loc) bits what r.loc = .ok () → ∀ x : BitVec w,
      2 ∣ (s + r.addend - r.loc).toInt →
        branchImm r.rtype (low (putBranch r.rtype x (s + r.addend - r.loc))) = low (s + r.addend - r.loc) := by
    intro s what bits hbits hr x heven
    subst hbits
    obtain ⟨text, hcheck⟩ := checkRange_eq hw (reach_cases r.rtype) (s + r.addend - r.loc) what r.loc
    have hreach : InReach (reach r.rtype) (s + r.addend - r.loc) := by
      by_contra hno
      rw [hcheck, dieIf, if_pos hno] at hr
      cases hr
    apply BitVec.eq_of_toInt_eq
    rw [branchImm_putBranch hw x hreach, inReach_low hw hreach, Int.ediv_mul_cancel heven]
  cases h
  case branch hb s x hs hr hx =>
    refine ⟨s, _, hs, imageWord_wr32 (by omega) _ _ _, fun heven => ?_⟩
    have hput : putB x (s + r.addend - r.loc) = putBranch r.rtype x (s + r.addend - r.loc) :=
      (if_pos hb).symm
    rw [hput]
    exact hcut (by rw [hb]; rfl) hr x heven
  case jal hj s x hs hr hx =>
    refine ⟨s, _, hs, imageWord_wr32 (by omega) _ _ _, fun heven => ?_⟩
    have hput : putJ x (s + r.addend - r.loc) = putBranch r.rtype x (s + r.addend - r.loc) :=
      (if_neg (by rw [hj]; decide)).symm
    rw [hput]
    exact hcut (by rw [hj]; rfl) hr x heven
  all_goals rcases ht with ht | ht <;> simp_all +decide

theorem applied_callImm (hw : 32 ≤ w) (h : Applied host syms st r st')
    (ht : r.rtype = R.call ∨ r.rtype = R.callPlt) :
    ∃ s u l, symaddr host syms r.rsym = .ok s ∧ imageWord st'.image r.loc = some u ∧
      imageWord st'.image (r.loc + 4) = some l ∧ uImm u = hiPart (low (s + r.addend - r.loc)) ∧
      iImm l = loPart (low (s + r.addend - r.loc)) := by
  cases h
  case call _ s x y hs hx hy =>
    refine ⟨s, _, _, hs, ?_, imageWord_wr32 hw _ _ _, uImm_putU hw x _,
      eq_loPart (uImm_add_iImm hw x _ y) (uImm_putU hw x _)⟩
    exact (imageWord_congr fun k hk => wr32_other fun hk' => field_apart hw hk hk').trans
      (imageWord_wr32 hw _ _ _)
  all_goals rcases ht with ht | ht <;> simp_all +decide

end Step

/-! ## 3. The words of the text in the file -/

section Linked

variable {host : Host} {d body : List UInt8} {obj : Obj w} {st : LinkState w} {head : List UInt8}
variable (hw : 32 ≤ w) (ht : Tiled obj.sec obj.lay) (hin : FieldsInside obj (relocs d obj))
include hw ht hin

/-- A field that is not empty, in numbers: it lies in its section, and nothing wraps. -/
theorem field_numbers {r : Reloc w} (hr : r ∈ relocs d obj) (hwid : r.width ≠ 0) {s : Section w}
    (hs : s ∈ obj.sec) (hidx : s.index = r.target) {b : BitVec w} (hb : obj.lay.base s.index = some b) :
    r.loc.toNat = b.toNat + r.roff.toNat ∧ r.roff.toNat + r.width ≤ s.size.toNat ∧
      b.toNat + s.size.toNat < 2 ^ (w - 1) := by
  have hlast := lastKey_lt (w := w)
  have h2 := two_pow_pred_lt hw
  have hlen := ht.len
  have hsec := ht.inside s hs b hb
  have hfield := hin r hr hwid s hs hidx
  obtain ⟨b', hb', hloc⟩ := loc_of_mem_relocs hr
  rw [← hidx, hb] at hb'
  cases hb'
  exact ⟨by rw [hloc, BitVec.toNat_add_of_lt (by omega)], hfield, by omega⟩

/-- Entries of two sections never meet. -/
theorem apart_of_target {q r : Reloc w} (hq : q ∈ relocs d obj) (hr : r ∈ relocs d obj)
    (hne : q.target ≠ r.target) : Apart q r := by
  intro i hi j hj e
  have h2 := two_pow_pred_lt hw
  obtain ⟨s, hs, hsidx, b, hb, -⟩ := field_inside hw ht hin hq (by omega)
  obtain ⟨t, htm, htidx, c, hc, -⟩ := field_inside hw ht hin hr (by omega)
  obtain ⟨hqn, hqf, hqs⟩ := field_numbers hw ht hin hq (by omega) hs hsidx hb
  obtain ⟨hrn, hrf, hrs⟩ := field_numbers hw ht hin hr (by omega) htm htidx hc
  have hi' := field_toNat (⟨i, hi, rfl⟩ : Field q.loc q.width _) (by omega)
  have hj' := field_toNat (⟨j, hj, e⟩ : Field r.loc r.width _) (by omega)
  rcases ht.apart s hs t htm (by rw [hsidx, htidx]; exact hne) b c hb hc with h | h <;> omega

/-- **What becomes of the field of a text entry**, whatever the entries of the data do to each other. -/
theorem text_entry (hblob : blob st.image obj.lay.imageLen = .ok body) (hh : head.length = 64)
    {T : Nat → Bool} (hno : TextApart d obj T)
    (hloop : relocLoop host d obj.syms (relocSites obj.sec obj.lay) obj.image = .ok st)
    {r : Reloc w} (hr : r ∈ relocs d obj) (hT : T r.target = true) :
    ∃ st1 st2, Applied host obj.syms st1 r st2 ∧
      (∀ p, p + 4 ≤ r.width → imageWord st1.image (r.loc + BitVec.ofNat w p) =
        imageWord obj.image (r.loc + BitVec.ofNat w p)) ∧
      (∀ p, p + 4 ≤ r.width → fileWord (head ++ body) (64 + r.loc.toNat + p) =
        imageWord st2.image (r.loc + BitVec.ofNat w p)) ∧
      ∀ site v, st1.hi20At site = some v → ∃ q ∈ relocs d obj, HiAt host obj.syms q site v := by
  have hloop := relocLoop_apply hloop
  change (relocs d obj).foldlM _ _ = _ at hloop
  obtain ⟨pre, post, hrels⟩ := List.append_of_mem hr
  have happ : ∀ q ∈ pre ++ post, Apart q r := by
    intro q hq
    have hqr : q ∈ relocs d obj := by
      rw [hrels]
      simp only [List.mem_append, List.mem_cons] at hq ⊢
      tauto
    by_cases htq : q.target = r.target
    · rw [TextApart, hrels] at hno
      obtain ⟨-, hrest, hcross⟩ := List.pairwise_append.mp hno
      rcases List.mem_append.mp hq with hq | hq
      · exact hcross q hq r List.mem_cons_self (htq ▸ hT) hT
      · exact Std.Symm.symm _ _ ((List.pairwise_cons.mp hrest).1 q hq hT (htq ▸ hT))
    · exact apart_of_target hw ht hin hqr hr htq
  rw [hrels] at hloop
  obtain ⟨st1, hpre, hloop⟩ := foldlM_append_ok.mp hloop
  obtain ⟨st2, hstep, hpost⟩ := foldlM_cons_ok.mp hloop
  refine ⟨st1, st2, applied_of_ok hstep, fun p hp => imageWord_congr fun k hk => ?_, fun p hp => ?_,
    fun site v hv => ?_⟩
  · exact loop_frame hpre fun q hq hf =>
      (happ q (List.mem_append_left _ hq)).field hf ((field_add hk).mono hp)
  · rw [fileWord_field hw ht hin hblob hh hr hp]
    exact imageWord_congr fun k hk => loop_frame hpost fun q hq hf =>
      (happ q (List.mem_append_right _ hq)).field hf ((field_add hk).mono hp)
  · obtain ⟨q, hq, hat⟩ := loop_hi20At hpre (fun _ => rfl) hv
    exact ⟨q, hrels ▸ List.mem_append_left _ hq, hat⟩

/-- **A word no entry touches** is in the file as objcopy gave it. -/
theorem text_plain (hload : load host d = .ok obj) (hblob : blob st.image obj.lay.imageLen = .ok body)
    (hh : head.length = 64)
    (hloop : relocLoop host d obj.syms (relocSites obj.sec obj.lay) obj.image = .ok st) {s : Section w}
    (hs : s ∈ obj.sec) {b : BitVec w} (hb : obj.lay.base s.index = some b) {off : Nat}
    (hoff : off + 4 ≤ s.size.toNat) (hfree : ∀ r ∈ relocs d obj, r.target = s.index →
      r.width = 0 ∨ r.roff.toNat + r.width ≤ off ∨ off + 4 ≤ r.roff.toNat) :
    fileWord (head ++ body) (64 + (b.toNat + off)) = inputWord host s off := by
  have hlast := lastKey_lt (w := w)
  have h2 := two_pow_pred_lt hw
  have hlen := ht.len
  have hsec := ht.inside s hs b hb
  obtain ⟨-, e, -, -, -, hblit, -⟩ := load_ok hload
  have hn : (b + BitVec.ofNat w off).toNat = b.toNat + off := by
    rw [BitVec.toNat_add, BitVec.toNat_ofNat, Nat.mod_eq_of_lt (by omega : off < 2 ^ w),
      Nat.mod_eq_of_lt (by omega)]
  rw [← hn, fileWord_of_blob hw hlen hblob hh (by omega),
    ← imageWord_input hw ht (nodup_of_load hload) hblit hs hb hoff]
  refine imageWord_congr fun k hk => loop_frame (relocLoop_apply hloop) fun r hr hf => ?_
  have hk1 := field_toNat hk (by omega)
  by_cases hwid : r.width = 0
  · rw [hwid] at hf
    obtain ⟨i, hi, -⟩ := hf
    omega
  obtain ⟨t, htm, htidx, c, hc, -⟩ := field_inside hw ht hin hr hwid
  obtain ⟨hrn, hrf, hrs⟩ := field_numbers hw ht hin hr hwid htm htidx hc
  have hk2 := field_toNat hf (by omega)
  by_cases htr : r.target = s.index
  · have e : c = b := by
      rw [htidx, htr, hb] at hc
      exact (Option.some.inj hc).symm
    subst e
    rcases hfree r hr htr with h | h | h <;> omega
  · rcases ht.apart t htm s hs (by rw [htidx]; exact htr) c b hc hb with h | h <;> omega

end Linked

/-! ## 4. Every instruction is in the memory -/

section Written

variable {host : Host} {d : List UInt8} {obj : Obj w} {T : Nat → Bool} {L : BitVec 32}

/-- A distance does not depend on the load address. -/
theorem distance_low (hw : 32 ≤ w) (s a p : BitVec w) : L + low s + low a - (L + low p) = low (s + a - p) := by
  rw [low_sub hw, low_add hw, BitVec.add_assoc]
  exact add_sub_add_left_eq_sub _ _ _

/-- The address of a symbol of the image moves with the image, and the script's is its offset. -/
theorem runAddress_image (hload : load host d = .ok obj) {k : Nat} (hk : (definedAt? d obj k).isSome = true)
    {S : BitVec 32} (hS : runAddress d obj L k = some S) {a : BitVec w} (ha : symaddr host obj.syms k = .ok a) :
    definedAt? d obj k = some a ∧ S = L + low a := by
  obtain ⟨S0, hS0⟩ := Option.isSome_iff_exists.mp hk
  obtain rfl := symaddr_defined hload (defined_of_definedAt? hS0) ha
  rw [runAddress, hS0] at hS
  exact ⟨hS0, (Option.some.inj hS).symm⟩

/-- An absolute address stays. -/
theorem runAddress_absolute (hload : load host d = .ok obj) {k : Nat}
    (hk : (absoluteAt? d obj k).isSome = true) {S : BitVec 32} (hS : runAddress d obj L k = some S)
    {a : BitVec w} (ha : symaddr host obj.syms k = .ok a) : S = low a := by
  obtain ⟨v, hv⟩ := Option.isSome_iff_exists.mp hk
  obtain rfl := symaddr_address hload (address_of_absoluteAt? hv) ha
  cases hdef : definedAt? d obj k with
  | some S0 =>
    rw [absoluteAt?_of_defined hdef] at hv
    cases hv
  | none =>
    rw [runAddress, hdef, hv] at hS
    exact (Option.some.inj hS).symm

/-- A HI20 of the text is found by its label alone. -/
theorem eq_of_label (hw : 32 ≤ w) (ht : Tiled obj.sec obj.lay) (hin : FieldsInside obj (relocs d obj))
    (hno : TextApart d obj T) (hfits : obj.lay.imageLen.toNat ≤ 2 ^ 32) {q q' : Reloc w}
    (hq : q ∈ relocs d obj) (hq' : q' ∈ relocs d obj) (htq : q.rtype = R.pcrelHi20)
    (htq' : q'.rtype = R.pcrelHi20) (hT : T q.target = true) (hlow : low q'.loc = low q.loc) : q' = q := by
  have hwid := Reloc.width_eq_four htq (by decide)
  have hwid' := Reloc.width_eq_four htq' (by decide)
  obtain ⟨-, -, -, -, -, -, -, hlen⟩ := field_inside hw ht hin hq (by omega)
  obtain ⟨-, -, -, -, -, -, -, hlen'⟩ := field_inside hw ht hin hq' (by omega)
  have hloc : q'.loc = q.loc := (low_inj (by omega) (by omega)).mp hlow
  by_contra hne
  have hmeet : ¬ Apart q' q := fun h => h 0 (by omega) 0 (by omega) (by rw [hloc])
  by_cases htar : q'.target = q.target
  · have : Std.Symm fun a b : Reloc w => T a.target = true → T b.target = true → Apart a b :=
      ⟨fun _ _ h hb ha => Std.Symm.symm _ _ (h ha hb)⟩
    exact hmeet (List.Pairwise.forall hno hq' hq hne (htar ▸ hT) hT)
  · exact hmeet (apart_of_target hw ht hin hq' hq htar)

/-- An entry with an operand is one that keeps what its format has beside the immediate. -/
theorem keepMasks_of_operand {r : Reloc w} {p : Nat} {f : Rv.Format} {v : BitVec 32}
    (hv : Operand d obj T L r p f v) : (p, f.keep) ∈ keepMasks r.rtype := by
  cases hv with
  | pcrelHi20 htype hS => simp [keepMasks, htype, Format.keep]
  | pcrelLo12 htype hq htq hTq hlabel hS =>
    rcases htype with ⟨h, rfl⟩ | ⟨h, rfl⟩ <;> simp +decide [keepMasks, h, Format.keep]
  | hi20 htype hS => simp [keepMasks, htype, Format.keep]
  | lo12 htype hS => rcases htype with ⟨h, rfl⟩ | ⟨h, rfl⟩ <;> simp +decide [keepMasks, h, Format.keep]
  | branch htype hS => simp +decide [keepMasks, htype, Format.keep]
  | jal htype hS => simp [keepMasks, htype, Format.keep]
  | callHi htype hS => rcases htype with h | h <;> simp +decide [keepMasks, h, Format.keep]
  | callLo htype hS => rcases htype with h | h <;> simp +decide [keepMasks, h, Format.keep]

/-- **The script writes the operand of the psABI.** -/
theorem operand_written (hw : w = 32 ∨ w = 64) (hload : load host d = .ok obj) (ht : Tiled obj.sec obj.lay)
    (hin : FieldsInside obj (relocs d obj)) (hno : TextApart d obj T)
    (hfits : obj.lay.imageLen.toNat ≤ 2 ^ 32) (hpi : Relocatable d obj T) {r : Reloc w}
    (hr : r ∈ relocs d obj) (hT : T r.target = true) {p : Nat} {f : Rv.Format} {v : BitVec 32}
    (hv : Operand d obj T L r p f v) {st1 st2 : LinkState w} (hap : Applied host obj.syms st1 r st2)
    (hhi : ∀ site v, st1.hi20At site = some v → ∃ q ∈ relocs d obj, HiAt host obj.syms q site v) :
    ∃ x, imageWord st2.image (r.loc + BitVec.ofNat w p) = some x ∧ f.imm x = v := by
  have hw' : 32 ≤ w := by omega
  obtain ⟨hpc, habs, heven⟩ := hpi r hr hT
  cases hv with
  | pcrelHi20 htype hS =>
    obtain ⟨s, x, hs, hx⟩ := applied_pcrelHi20 hw' hap htype
    obtain ⟨-, rfl⟩ := runAddress_image hload (hpc (by simp [htype])) hS hs
    rw [distance_low hw', ofNat_zero_add]
    exact ⟨_, hx, uImm_putU hw' _ _⟩
  | @pcrelLo12 _ htype q hq htq hTq hlabel S hS =>
    have hlo : r.rtype = R.pcrelLo12I ∨ r.rtype = R.pcrelLo12S := htype.imp And.left And.left
    obtain ⟨site, v, l, hs, hv, hl, himm⟩ := applied_loImm hw' hap hlo
    obtain ⟨-, hsite⟩ := runAddress_image hload (hpc (by rcases hlo with h | h <;> simp [h])) hlabel hs
    obtain ⟨q', hq', htq', hloc, s', hs', rfl⟩ := hhi site v hv
    obtain rfl : q' = q := eq_of_label hw' ht hin hno hfits hq hq' htq htq' hTq
      (by rw [hloc]; exact ((BitVec.add_right_inj L).mp hsite).symm)
    obtain ⟨-, rfl⟩ := runAddress_image hload ((hpi q' hq hTq).1 (by simp [htq])) hS hs'
    rw [distance_low hw', ofNat_zero_add]
    refine ⟨l, hl, ?_⟩
    rcases htype with ⟨h, rfl⟩ | ⟨h, rfl⟩
    · exact (if_pos (.inl h)).symm.trans himm
    · exact (if_neg (by rw [h]; decide)).symm.trans himm
  | hi20 htype hS =>
    obtain ⟨s, x, hs, hx, himm⟩ := applied_hi20 hw' hap htype
    obtain rfl := runAddress_absolute hload (habs (by simp [htype])) hS hs
    rw [← low_add hw', ofNat_zero_add]
    exact ⟨x, hx, himm⟩
  | lo12 htype hS =>
    have hlo : r.rtype = R.lo12I ∨ r.rtype = R.lo12S := htype.imp And.left And.left
    obtain ⟨s, l, hs, hl, himm⟩ := applied_lo12 hw' hap hlo
    obtain rfl := runAddress_absolute hload (habs (by rcases hlo with h | h <;> simp [h])) hS hs
    rw [← low_add hw', ofNat_zero_add]
    refine ⟨l, hl, ?_⟩
    rcases htype with ⟨h, rfl⟩ | ⟨h, rfl⟩
    · exact (if_pos (.inr h)).symm.trans himm
    · exact (if_neg (by rw [h]; decide)).symm.trans himm
  | branch htype hS =>
    obtain ⟨s, x, hs, hx, himm⟩ := applied_branchImm hw hap (.inl htype)
    obtain ⟨hS0, rfl⟩ := runAddress_image hload (hpc (by simp [htype])) hS hs
    have himm := himm (heven (.inl htype) s hS0)
    rw [distance_low hw', ofNat_zero_add]
    rw [branchImm, if_pos htype] at himm
    exact ⟨x, hx, himm⟩
  | jal htype hS =>
    obtain ⟨s, x, hs, hx, himm⟩ := applied_branchImm hw hap (.inr htype)
    obtain ⟨hS0, rfl⟩ := runAddress_image hload (hpc (by simp [htype])) hS hs
    have himm := himm (heven (.inr htype) s hS0)
    rw [distance_low hw', ofNat_zero_add]
    rw [branchImm, if_neg (by rw [htype]; decide)] at himm
    exact ⟨x, hx, himm⟩
  | callHi htype hS =>
    obtain ⟨s, u, l, hs, hu, hl, hui, hli⟩ := applied_callImm hw' hap htype
    obtain ⟨-, rfl⟩ := runAddress_image hload (hpc (by rcases htype with h | h <;> simp [h])) hS hs
    rw [distance_low hw', ofNat_zero_add]
    exact ⟨u, hu, hui⟩
  | callLo htype hS =>
    obtain ⟨s, u, l, hs, hu, hl, hui, hli⟩ := applied_callImm hw' hap htype
    obtain ⟨-, rfl⟩ := runAddress_image hload (hpc (by rcases htype with h | h <;> simp [h])) hS hs
    rw [distance_low hw']
    exact ⟨l, hl, hli⟩

/-- A word of the file is in memory. -/
theorem wordAt_of_fileWord {out : List UInt8} {m : BitVec 32 → UInt8} (hl : Loaded out obj L m) {n : Nat}
    {x : BitVec 32} (hn : n + 4 ≤ obj.lay.imageLen.toNat) (h : fileWord out (64 + n) = some x) :
    wordAt m (L + BitVec.ofNat 32 n) = x := by
  have key : ∀ k, L + BitVec.ofNat 32 n + BitVec.ofNat 32 k = L + BitVec.ofNat 32 (n + k) := fun k => by
    rw [BitVec.add_assoc, ← BitVec.ofNat_add]
  have e1 : L + BitVec.ofNat 32 n + 1 = L + BitVec.ofNat 32 (n + 1) := key 1
  have e2 : L + BitVec.ofNat 32 n + 2 = L + BitVec.ofNat 32 (n + 2) := key 2
  have e3 : L + BitVec.ofNat 32 n + 3 = L + BitVec.ofNat 32 (n + 3) := key 3
  have h0 := hl.bytes n (by omega)
  have h1 := hl.bytes (n + 1) (by omega)
  have h2 := hl.bytes (n + 2) (by omega)
  have h3 := hl.bytes (n + 3) (by omega)
  rw [← Nat.add_assoc] at h1 h2 h3
  unfold fileWord at h
  rw [h0, h1, h2, h3] at h
  rw [wordAt, e1, e2, e3]
  exact Option.some.inj h

/-- An image offset as a number of bytes. -/
theorem offset_low (off : BitVec w) (p : Nat) :
    L + low off + BitVec.ofNat 32 p = L + BitVec.ofNat 32 (off.toNat + p) := by
  have e : low off = BitVec.ofNat 32 off.toNat := by
    apply BitVec.eq_of_toNat_eq
    simp [low]
  rw [e, BitVec.add_assoc, ← BitVec.ofNat_add]

/-- **Every instruction of the source is in the memory**, with its operand. -/
theorem spells_of_linked (hw : w = 64 ∨ w = 32) {stack : BitVec w} {out : List UInt8}
    (h : mkflt w host stack d = .ok out) (hload : load host d = .ok obj) (hfit : w = 64 ∨ Fits obj.sec)
    (hin : FieldsInside obj (relocs d obj)) (hno : TextApart d obj T) (hpi : Relocatable d obj T)
    {m : BitVec 32 → UInt8} (hl : Loaded out obj L m) : Spells (Says d obj T L host) m := by
  have hw' : 32 ≤ w := by omega
  obtain ⟨st, body, head, hloop, hblob, hh, rfl, ht⟩ := linked_of_mkflt hw h hload hfit
  intro pc o v hsays
  cases hsays with
  | @plain s hs hT b hb off hoff x hx _ ho hfree =>
    have hword := text_plain hw' ht hin hload hblob hh hloop hs hb hoff hfree
    have hsec := ht.inside s hs b hb
    rw [hx] at hword
    rw [offset_low, wordAt_of_fileWord hl (by omega) hword]
    exact ⟨ho, rfl⟩
  | @entry r hr hT s hs hidx p x hx _ ho _ hv =>
    obtain ⟨st1, st2, hap, hold, hfile, hhi⟩ := text_entry hw' ht hin hblob hh hno hloop hr hT
    obtain ⟨x', hx', himm⟩ := operand_written hw.symm hload ht hin hno hl.fits hpi hr hT hv hap hhi
    have hkeep := keepMasks_of_operand hv
    have hwid := width_of_keepMasks hkeep
    obtain ⟨-, -, -, -, -, -, -, hlen⟩ := field_inside hw' ht hin hr (by omega)
    obtain ⟨x0, x1, hx0, hx1, hmask⟩ := applied_keeps hw' hap hkeep
    rw [hx'] at hx1
    cases hx1
    -- the word the entry found is the object's
    obtain ⟨s', hs', hidx', hinput⟩ := input_of_field hw' ht hin hload hr hwid
    obtain rfl : s' = s := List.inj_on_of_nodup_map (nodup_of_load hload) hs' hs (hidx'.trans hidx.symm)
    rw [hold p hwid, hinput, hx] at hx0
    cases hx0
    have hword : fileWord (head ++ body) (64 + (r.loc.toNat + p)) = some x' := by
      rw [← Nat.add_assoc, hfile p hwid, hx']
    rw [offset_low, wordAt_of_fileWord hl (by omega) hword]
    exact ⟨opOf_keep ho hmask, himm⟩

end Written

/-! ## 5. The program runs -/

section Run

variable {σ : Type} {env : BitVec 25 → Hart (BitVec 32) σ → Option (Hart (BitVec 32) σ)}
variable {host : Host} {d : List UInt8} {obj : Obj w} {T : Nat → Bool} {L : BitVec 32}

/-- **A linked program takes the steps of its source**, at every load address: as long as it does not write
    over its own text, `n` steps of the one are `n` steps of the other. -/
theorem linked_runs (hw : w = 64 ∨ w = 32) {stack : BitVec w} {out : List UInt8}
    (h : mkflt w host stack d = .ok out) (hload : load host d = .ok obj) (hfit : w = 64 ∨ Fits obj.sec)
    (hin : FieldsInside obj (relocs d obj)) (hno : TextApart d obj T) (hpi : Relocatable d obj T) {n : Nat}
    {s s' : Hart (BitVec 32) σ} (hl : Loaded out obj L s.mem)
    (hrun : CodeRun env (Says d obj T L host) (Text d obj T L host) n s s') : run env n s = some s' :=
  (run_of_codeRun (fun pc o v hc k hk => ⟨pc, o, v, hc, k, hk, rfl⟩)
    (spells_of_linked hw h hload hfit hin hno hpi hl) hrun).1

end Run

/-- A memory with an image in it. -/
def memoryOf (out : List UInt8) (L a : BitVec 32) : UInt8 := (out[64 + (a - L).toNat]?).getD 0

theorem loaded_memoryOf {out : List UInt8} {obj : Obj w} (L : BitVec 32)
    (hfits : obj.lay.imageLen.toNat ≤ 2 ^ 32) (hlen : out.length = 64 + obj.lay.imageLen.toNat) :
    Loaded out obj L (memoryOf out L) where
  fits := hfits
  bytes i hi := by
    have e : (L + BitVec.ofNat 32 i - L).toNat = i := by
      rw [BitVec.add_comm, BitVec.add_sub_cancel, BitVec.toNat_ofNat, Nat.mod_eq_of_lt (by omega)]
    rw [memoryOf, e, List.getElem?_eq_getElem (by omega)]
    rfl

/-- `here: lla a0, msg`, and the word `msg` after it. -/
def msgProgram : List Elf.Sec :=
  Elf.program [0x17, 0x05, 0, 0, 0x13, 0x05, 0x05, 0, 1, 2, 3, 4]
    [Elf.rela 0 2 R.pcrelHi20 0, Elf.rela 4 1 R.pcrelLo12I 0]
    [Elf.sym 0 0, Elf.sym 0 1, Elf.sym 8 1] []

/-- Its two entries, as the loop reads them. -/
def msgHi : Reloc 32 := ⟨0, R.pcrelHi20, 2, 0, 1, 0⟩
def msgLo : Reloc 32 := ⟨4, R.pcrelLo12I, 1, 0, 1, 4⟩

theorem linked_runs_msg : ∃ (out : List UInt8) (s' : Hart (BitVec 32) Unit),
    mkflt 32 (.ofSections msgProgram) 8192 (Elf.object msgProgram) = .ok out ∧
    run (fun _ _ => none) 2 ⟨0x48000000, fun _ => 0, memoryOf out 0x48000000, ()⟩ = some s' ∧
    s'.get 10 = 0x48000008 := by
  obtain ⟨obj, out, hout, hobj, hp⟩ := exists_linked (w := 32) (.ofSections msgProgram) 8192
    (Elf.object msgProgram) (p := fun out obj => decide (Fits obj.sec) &&
      (decide (relocs (Elf.object msgProgram) obj = [msgHi, msgLo]) &&
      (decide (FieldsInside obj [msgHi, msgLo]) && (decide (out.length = 64 + obj.lay.imageLen.toNat) &&
      (decide (definedAt? (Elf.object msgProgram) obj 2 = some 8) &&
      (decide (definedAt? (Elf.object msgProgram) obj 1 = some 0) && obj.sec.any fun s =>
        decide (s.index = 1) && (decide (inputWord (.ofSections msgProgram) s 0 = some 0x517) &&
          decide (inputWord (.ofSections msgProgram) s 4 = some 0x50513)))))))) (by decide +kernel)
  simp only [Bool.and_eq_true, decide_eq_true_eq, List.any_eq_true] at hp
  obtain ⟨hfit, hrels, hin, hlen, hmsg, hhere, s, hs, hidx, hx, hy⟩ := hp
  -- from here on the bytes of the object do not matter
  generalize Elf.object msgProgram = d at *
  generalize Host.ofSections msgProgram = host at *
  have hq : msgHi ∈ relocs d obj := by simp [hrels]
  have hlo : msgLo ∈ relocs d obj := by simp [hrels]
  have hS : runAddress d obj 0x48000000 2 = some 0x48000008 := by
    rw [runAddress, hmsg]
    rfl
  have hP : runAddress d obj 0x48000000 1 = some (0x48000000 + low msgHi.loc) := by
    rw [runAddress, hhere]
    rfl
  have hpi : Relocatable d obj (· == 1) := by
    intro r hr _
    rw [hrels, List.mem_cons, List.mem_singleton] at hr
    obtain rfl | rfl := hr
    · exact ⟨fun _ => by rw [msgHi, hmsg]; rfl, fun h => absurd h (by decide), fun h => absurd h (by decide)⟩
    · exact ⟨fun _ => by rw [msgLo, hhere]; rfl, fun h => absurd h (by decide), fun h => absurd h (by decide)⟩
  -- the halves of the distance 8
  have hu : Operand d obj (· == 1) 0x48000000 msgHi 0 .u 0 := by
    have e : (0 : BitVec 32) = hiPart (0x48000008 + low msgHi.addend - (0x48000000 + low msgHi.loc)) := by decide
    rw [e]
    exact .pcrelHi20 rfl hS
  have hl : Operand d obj (· == 1) 0x48000000 msgLo 0 .i 8 := by
    have e : (8 : BitVec 32) = loPart (0x48000008 + low msgHi.addend - (0x48000000 + low msgHi.loc)) := by decide
    rw [e]
    refine .pcrelLo12 (q := msgHi) (.inl ⟨rfl, rfl⟩) hq rfl rfl ?_ hS
    rw [show msgLo.rsym = 1 from rfl]
    exact hP
  have hauipc : Says d obj (· == 1) 0x48000000 host (0x48000000 + low msgHi.loc + BitVec.ofNat 32 0)
      (.auipc 10) 0 := .entry hq rfl hs hidx hx (by decide) hu
  have haddi : Says d obj (· == 1) 0x48000000 host (0x48000000 + low msgLo.loc + BitVec.ofNat 32 0)
      (.aluImm .add 10 10) 8 := .entry hlo rfl hs hidx hy (by decide) hl
  refine ⟨out, _, hout, linked_runs (.inr rfl) hout hobj (.inr hfit) (hrels ▸ hin)
    (by rw [TextApart, hrels]; decide) hpi (loaded_memoryOf 0x48000000 obj.lay.imageLen.isLt.le hlen)
    (.step hauipc rfl (fun _ _ => rfl) (.step haddi rfl (fun _ _ => rfl) (.stop _))), ?_⟩
  simp [Alu.eval]

end P4Linux.Mkflt
