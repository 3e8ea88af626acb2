import P4Linux.Mkflt.PcRel
import P4Linux.Mkflt.Widths

/-!
# One script, two integer widths: linking

The second half of the comparison begun in `Widths.lean`: symbols, relocations, the output file. The
conditions go on along the 64-bit run, one for each step that could part the two:

* `SymbolsSettled`, `EntryBounds` -- a table of less than `2 ^ 31` bytes, entries that are settled,
  fields that are words of the image, or are missing from it at both widths;
* `EntryNear` -- no branch target is in reach, and no label a HI20 site, modulo `2 ^ 32` only: here
  `check_range` and `hi20_at` would be given what the width made of an address;
* `applyReloc_agree`, `relocLoop_agree` -- one entry, and the loop up to the entry that stops it;
* `Alike` -- all of them, each asked only where the run comes to it;
* `sameOutcome_iff` -- **then both runs end alike**; and of an object that either run accepts, with the
  bounds held, only then.
-/

namespace P4Linux.Mkflt

open Lua

/-! ## 1. Symbols -/

/-- The address of a symbol at both widths. -/
def SymbolLow (s : Symbol 32) (t : Symbol 64) : Prop := s.addr = t.addr.map low

/-- **The symbol table's size is not negative at 32 bits, and each symbol the run comes to** is settled: its
    `st_shndx` is read first, and lies behind the other fields. -/
def SymbolsSettled (d : List UInt8) (sec : List (Section 64)) (l : Layout 64) : Prop :=
  ∀ p ∈ findSymtab sec, p.1.size.toNat < 2 ^ 31 ∧
    EachOf (readSymbol d l p.1 p.2) (fun k => Settled d (p.1.offset + BitVec.ofNat 64 k * 16 + 14))
      (List.range (p.1.size.toNat / 16))

instance (d : List UInt8) (sec : List (Section 64)) (l : Layout 64) : Decidable (SymbolsSettled d sec l) :=
  inferInstanceAs (Decidable (∀ p ∈ findSymtab sec, _))

/-- The name of symbol `k` as it is read where the two offsets are added at 32 bits. -/
def narrowSymname (d : List UInt8) (sec : List (Section 64)) (k : Nat) : List UInt8 :=
  match findSymtab sec with
  | some (symtab, some strtab) =>
    match u32 d (symtab.offset + BitVec.ofNat 64 k * 16) with
    | .ok off => uptoNul (subFrom d (low (strtab.offset + off + 1)))
    | .error _ => []
  | _ => []

/-- `s` has the narrow name of a symbol that the wide run reads as `t`. -/
def NameRead (d : List UInt8) (sec : List (Section 64)) (l : Layout 64) (s : Symbol 32) (t : Symbol 64) : Prop :=
  ∃ p ∈ findSymtab sec, ∃ k < p.1.size.toNat / 16, readSymbol d l p.1 p.2 k = .ok t ∧ s.name = narrowSymname d sec k

/-- The same section by its index: the index is a half-word or a word of the file. -/
theorem secAt_low {sec : List (Section 32)} {sec' : List (Section 64)}
    (h : List.Forall₂ SectionLow sec sec') {k : BitVec 32} {k' : BitVec 64} (hk : Word 32 k k') :
    Option.Rel SectionLow (secAt sec k) (secAt sec' k') := by
  unfold secAt
  rw [hk.toNat (le_refl 32)]
  exact forall₂_getElem? h _

/-- The last section of type SHT_SYMTAB, and the string table it links to. -/
theorem findSymtab_low {sec : List (Section 32)} {sec' : List (Section 64)}
    (h : List.Forall₂ SectionLow sec sec') :
    Option.Rel (fun p q => SectionLow p.1 q.1 ∧ Option.Rel SectionLow p.2 q.2) (findSymtab sec)
      (findSymtab sec') := by
  -- a fold that keeps the last match, so the relation is kept from both at once
  have key : ∀ {rest : List (Section 32)} {rest' : List (Section 64)} {o o'},
      List.Forall₂ SectionLow rest rest' →
      Option.Rel (fun p q => SectionLow p.1 q.1 ∧ Option.Rel SectionLow p.2 q.2) o o' →
      Option.Rel (fun p q => SectionLow p.1 q.1 ∧ Option.Rel SectionLow p.2 q.2)
        (rest.foldl (fun r s => if s.type = BitVec.ofNat 32 shtSymtab then some (s, secAt sec s.link)
          else r) o)
        (rest'.foldl (fun r s => if s.type = BitVec.ofNat 64 shtSymtab then some (s, secAt sec' s.link)
          else r) o') := by
    intro rest rest' o o' hrest ho
    induction hrest generalizing o o' with
    | nil => exact ho
    | @cons s t rest rest' hst hrest ih =>
      rw [List.foldl_cons, List.foldl_cons]
      apply ih
      have htype := hst.type.eq_ofNat (n := shtSymtab) (by decide)
      by_cases ht : t.type = BitVec.ofNat 64 shtSymtab
      · rw [if_pos ht, if_pos (htype.mpr ht)]
        exact .some ⟨hst, secAt_low h hst.link⟩
      · rw [if_neg ht, if_neg fun hs => ht (htype.mp hs)]
        exact ho
  exact key h .none

/-- The address of a symbol: `st_shndx` decides alike, and a base plus a value is the low word of the sum,
    whether or not it wraps. -/
theorem symbolAddr_low {l : Layout 32} {l' : Layout 64} (hl : LayoutLow l l') {shndx : BitVec 32}
    {shndx' : BitVec 64} (hs : Word 16 shndx shndx') {value : BitVec 32} {value' : BitVec 64}
    (hv : Word 32 value value') :
    symbolAddr l shndx value = (symbolAddr l' shndx' value').map low := by
  have hs32 : Word 32 shndx shndx' := ⟨hs.1, hs.2.trans (by decide)⟩
  have habs := hs32.eq_ofNat (n := shnAbs) (by decide)
  have hundef := hs32.eq_ofNat (n := shnUndef) (by decide)
  have hbase : l.at? shndx = (l'.at? shndx').map low := by
    unfold Layout.at?
    rw [hs32.toNat (le_refl 32), hl.base]
  unfold symbolAddr
  by_cases h1 : shndx' = BitVec.ofNat 64 shnAbs
  · rw [if_pos h1, if_pos (habs.mpr h1), hv.1]
    rfl
  rw [if_neg h1, if_neg fun h => h1 (habs.mp h)]
  by_cases h2 : shndx' = BitVec.ofNat 64 shnUndef
  · rw [if_pos h2, if_pos (hundef.mpr h2)]
    rfl
  rw [if_neg h2, if_neg fun h => h2 (hundef.mp h), hbase]
  cases l'.at? shndx' with
  | none => exact congrArg some hv.1
  | some b =>
    show some (low b + value) = some (low (b + value'))
    rw [low_add (by omega), hv.1]

/-- The number of whole entries in a table. -/
theorem entries_low {x : BitVec 32} {y : BitVec 64} (h : Word 31 x y) {n : Nat} (hn : n < 2 ^ 16) :
    (idiv x (BitVec.ofNat 32 n)).toInt.toNat = y.toNat / n ∧
      (idiv y (BitVec.ofNat 64 n)).toInt.toNat = y.toNat / n := by
  have hy := h.2
  have hx := h.toNat (by omega)
  have hdiv := Nat.div_le_self y.toNat n
  have e32 : (BitVec.ofNat 32 n).toNat = n := by rw [BitVec.toNat_ofNat, Nat.mod_eq_of_lt (by omega)]
  have e64 : (BitVec.ofNat 64 n).toNat = n := by rw [BitVec.toNat_ofNat, Nat.mod_eq_of_lt (by omega)]
  rw [idiv_of_lt (by omega) (by omega) (by omega), idiv_of_lt (by omega) (by omega) (by omega), e32, e64,
    hx, toInt_ofNat_lt (by omega) (by omega), toInt_ofNat_lt (by omega) (by omega)]
  exact ⟨rfl, rfl⟩

/-- Entry `k` of a table of `n`-byte entries that is smaller than the sign bit. -/
theorem entry_low {off : BitVec 32} {off' : BitVec 64} (h : Word 32 off off') {k n : Nat}
    (hk : k * n < 2 ^ 31) :
    off + BitVec.ofNat 32 k * BitVec.ofNat 32 n = low (off' + BitVec.ofNat 64 k * BitVec.ofNat 64 n) ∧
      (off' + BitVec.ofNat 64 k * BitVec.ofNat 64 n).toNat < 2 ^ 33 := by
  have hoff := h.2
  constructor
  · rw [low_add (by omega), low_mul (by omega), low_ofNat (by omega), low_ofNat (by omega), h.1]
  · rw [← BitVec.ofNat_mul, toNat_field (by omega)]
    omega

/-- **One symbol reads the same**, if its last field is settled: the others lie before it. -/
theorem readSymbol_agree {d : List UInt8} (hd : d.length < 2 ^ 31) {sec : List (Section 64)} {l : Layout 32}
    {l' : Layout 64} (hl : LayoutLow l l') {s : Section 32} {t : Section 64} (hst : SectionLow s t)
    {o : Option (Section 32)} {o' : Option (Section 64)} (ho : Option.Rel SectionLow o o')
    (hfind : findSymtab sec = some (t, o')) {k : Nat} (hk : k < t.size.toNat / 16) (hsize : t.size.toNat < 2 ^ 31)
    (hsettled : Settled d (t.offset + BitVec.ofNat 64 k * 16 + 14)) :
    Agree (fun a b => SymbolLow a b ∧ NameRead d sec l' a b) (readSymbol d l s o k) (readSymbol d l' t o' k) := by
  obtain ⟨e, hn⟩ := entry_low hst.offset (k := k) (n := 16) (by omega)
  replace e : s.offset + BitVec.ofNat 32 k * 16 = low (t.offset + BitVec.ofNat 64 k * 16) := e
  replace hn : (t.offset + BitVec.ofNat 64 k * 16).toNat < 2 ^ 33 := hn
  suffices h : Agree (fun a b => SymbolLow a b ∧ a.name = narrowSymname d sec k) (readSymbol d l s o k)
      (readSymbol d l' t o' k) from
    h.and_ok.mono fun a b h => ⟨h.1.1, _, hfind, k, hk, h.2, h.1.2⟩
  have hname : ∀ t' off, o' = some t' → u32 d (t.offset + BitVec.ofNat 64 k * 16) = .ok off →
      narrowSymname d sec k = uptoNul (subFrom d (low (t'.offset + off + 1))) := by
    rintro t' off rfl hoff
    unfold narrowSymname
    rw [hfind]
    dsimp only
    rw [hoff]
  unfold readSymbol
  rw [e]
  generalize t.offset + BitVec.ofNat 64 k * 16 = p at hn hsettled hname ⊢
  refine (u16_field hd (k := 14) (by omega) hsettled).bind fun shndx shndx' _ hs e1 => ?_
  have hin := u16_inside (by rw [toNat_field (n := 14) (by omega)]; omega) hs
  rw [toNat_field (n := 14) (by omega)] at hin
  have hvalue : Settled d (p + BitVec.ofNat 64 4) := settled_of_le hd (by rw [toNat_field (by omega)]; omega)
  refine (u32_field hd (k := 4) (by omega) hvalue).bind fun value value' _ _ e2 => ?_
  refine (u32_agree hd (by omega) (settled_of_le hd (by omega))).bind fun off off' _ hoff e3 => ?_
  refine Agree.bind (R := fun a _ => a = narrowSymname d sec k) ?_ fun name name' _ _ e4 =>
    agree_pure ⟨symbolAddr_low hl e1 e2, e4⟩
  cases ho with
  | none => exact .error _ _
  | @some strtab strtab' hstr =>
    refine .ok ?_
    rw [hname _ _ rfl hoff, ← low_succ, low_add (by omega), ← hstr.offset.1, e3.1]

/-- **The symbol table reads the same**, up to the symbol that stops both runs. -/
theorem readSymbols_agree {host : Host} {d : List UInt8} (hd : d.length < 2 ^ 31) {sec : List (Section 32)}
    {sec' : List (Section 64)} (h : List.Forall₂ SectionLow sec sec') {l : Layout 32}
    {l' : Layout 64} (hl : LayoutLow l l') (hlow : SymbolsSettled d sec' l') :
    Agree (List.Forall₂ fun s t => SymbolLow s t ∧ NameRead d sec' l' s t) (readSymbols host d sec l)
      (readSymbols host d sec' l') := by
  have hlows := findSymtab_low h
  unfold readSymbols
  unfold SymbolsSettled at hlow
  generalize findSymtab sec = p at hlows ⊢
  generalize hfind : findSymtab sec' = q at hlows hlow ⊢
  cases hlows with
  | none => exact .error _ _
  | @some p q hpq =>
    obtain ⟨s, o⟩ := p
    obtain ⟨t, o'⟩ := q
    obtain ⟨hsize, hsettled⟩ := hlow (t, o') rfl
    dsimp only at hpq hsize hsettled
    obtain ⟨e32, e64⟩ := entries_low (n := 16) ⟨hpq.1.size.1, hsize⟩ (by decide)
    show Agree _ ((List.range (idiv s.size (BitVec.ofNat 32 16)).toInt.toNat).mapM _)
      ((List.range (idiv t.size (BitVec.ofNat 64 16)).toInt.toNat).mapM _)
    rw [e32, e64]
    have hrange : List.Forall₂ (fun a b => a = b ∧ b < t.size.toNat / 16) (List.range (t.size.toNat / 16))
        (List.range (t.size.toNat / 16)) :=
      List.forall₂_same.mpr fun k hk => ⟨rfl, List.mem_range.mp hk⟩
    refine Agree.mapM_each hrange hsettled fun k k' hk hp => ?_
    rw [hk.1]
    exact readSymbol_agree hd hl hpq.1 hpq.2 hfind hk.2 hsize hp

/-- A symbol without an address is refused by both runs. -/
theorem symaddr_agree (host : Host) {syms : List (Symbol 32)} {syms' : List (Symbol 64)}
    (h : List.Forall₂ SymbolLow syms syms') (k : Nat) :
    Agree (fun x y => x = low y) (symaddr host syms k) (symaddr host syms' k) := by
  have hk := forall₂_getElem? h k
  unfold symaddr
  generalize syms[k]? = o at hk ⊢
  generalize syms'[k]? = o' at hk ⊢
  cases hk with
  | none => exact .error _ _
  | @some s t hst =>
    dsimp only
    rw [show s.addr = _ from hst]
    cases t.addr with
    | none => exact .error _ _
    | some a => exact .ok rfl

/-! ## 2. Relocation entries -/

/-- An entry at both widths; its place is at most a base and an offset. -/
structure RelocLow (r : Reloc 32) (r' : Reloc 64) : Prop where
  loc : r.loc = low r'.loc
  rtype : r.rtype = r'.rtype
  rsym : r.rsym = r'.rsym
  addend : r.addend = low r'.addend
  bound : r'.loc.toNat < 2 ^ 33

/-- A place the loop visits: the same section, base and entry, of a table smaller than the sign bit. -/
structure SiteLow (p : Section 32 × BitVec 32 × Nat) (q : Section 64 × BitVec 64 × Nat) : Prop where
  sec : SectionLow p.1 q.1
  base : Word 31 p.2.1 q.2.1
  entry : p.2.2 = q.2.2
  inside : q.2.2 * q.1.esz < 2 ^ 31

/-- Where the entry of a site starts in the file. -/
def siteAt (q : Section 64 × BitVec 64 × Nat) : BitVec 64 :=
  q.1.offset + BitVec.ofNat 64 q.2.2 * BitVec.ofNat 64 q.1.esz

/-- The entries of one section. -/
def sitesOf {w : Nat} (l : Layout w) (s : Section w) : List (Section w × BitVec w × Nat) :=
  if s.isReloc then
    match l.at? s.info with
    | some b => (List.range (idiv s.size (BitVec.ofNat w s.esz)).toInt.toNat).map (s, b, ·)
    | none => []
  else []

theorem relocSites_eq {w : Nat} (sec : List (Section w)) (l : Layout w) :
    relocSites sec l = sec.flatMap (sitesOf l) := rfl

/-- The kind of a table, and with it the size of its entries. -/
theorem SectionLow.isRela {s : Section 32} {t : Section 64} (h : SectionLow s t) :
    s.isRela = t.isRela := by
  unfold Section.isRela
  rw [Bool.eq_iff_iff, beq_iff_eq, beq_iff_eq]
  exact h.type.eq_ofNat (by decide)

theorem SectionLow.isReloc {s : Section 32} {t : Section 64} (h : SectionLow s t) :
    s.isReloc = t.isReloc := by
  have hrel : (s.type == BitVec.ofNat 32 shtRel) = (t.type == BitVec.ofNat 64 shtRel) := by
    rw [Bool.eq_iff_iff, beq_iff_eq, beq_iff_eq]
    exact h.type.eq_ofNat (by decide)
  unfold Section.isReloc
  rw [hrel]
  exact congrArg (· || _) h.isRela

theorem SectionLow.esz {s : Section 32} {t : Section 64} (h : SectionLow s t) : s.esz = t.esz := by
  unfold Section.esz
  rw [h.isRela]

/-- A REL entry has two words, a RELA entry three. -/
theorem esz_le {w : Nat} (s : Section w) : 8 ≤ s.esz ∧ s.esz ≤ 12 := by
  unfold Section.esz
  split <;> omega

/-- The sites of one section: a table as large as the sign bit has a first entry for the wide run, and
    there its size is asked for. -/
theorem sitesOf_low {s : Section 32} {t : Section 64} (hst : SectionLow s t) {l : Layout 32} {l' : Layout 64}
    (hl : LayoutLow l l') (hhead : ∀ q ∈ (sitesOf l' t).head?, q.1.size.toNat < 2 ^ 31) :
    List.Forall₂ SiteLow (sitesOf l s) (sitesOf l' t) := by
  have hbase : l.at? s.info = (l'.at? t.info).map low := by
    unfold Layout.at?
    rw [hst.info.toNat (le_refl 32), hl.base]
  unfold sitesOf at hhead ⊢
  rw [hst.isReloc, hbase, hst.esz]
  cases ht : t.isReloc with
  | false => exact .nil
  | true =>
    cases hb : l'.at? t.info with
    | none => exact .nil
    | some b =>
      have hesz := esz_le t
      have hlt := hst.size.2
      have hdiv := Nat.div_le_self t.size.toNat t.esz
      have hcount : (idiv t.size (BitVec.ofNat 64 t.esz)).toInt.toNat = t.size.toNat / t.esz := by
        have e : (BitVec.ofNat 64 t.esz).toNat = t.esz := by rw [BitVec.toNat_ofNat, Nat.mod_eq_of_lt (by omega)]
        rw [idiv_of_lt (by omega) (by omega) (by omega), e, toInt_ofNat_lt (by omega) (by omega)]
        rfl
      -- from the sign bit on a size is negative at 32 bits: there the narrow loop would have no entry
      have hsize : t.size.toNat < 2 ^ 31 := by
        by_contra hge
        have hpos : 0 < t.size.toNat / t.esz := Nat.div_pos (by omega) (by omega)
        rw [ht, hb] at hhead
        dsimp only at hhead
        rw [if_pos rfl, hcount, List.head?_map, List.head?_range, if_neg (by omega)] at hhead
        exact hge (hhead (t, b, 0) rfl)
      obtain ⟨e32, -⟩ := entries_low (n := t.esz) (x := s.size) (y := t.size) ⟨hst.size.1, hsize⟩ (by omega)
      dsimp only [Option.map_some, if_true]
      rw [if_pos rfl, if_pos rfl, e32, hcount, List.forall₂_map_left_iff, List.forall₂_map_right_iff,
        List.forall₂_same]
      intro k hk
      rw [List.mem_range] at hk
      have hle : (k + 1) * t.esz ≤ t.size.toNat := (Nat.le_div_iff_mul_le (by omega)).mp hk
      refine ⟨hst, ⟨rfl, hl.known _ _ hb⟩, rfl, ?_⟩
      rw [Nat.add_mul] at hle
      dsimp only
      omega

/-- **One entry reads the same**, if its first byte is settled. -/
theorem readReloc_agree {d : List UInt8} (hd : d.length < 2 ^ 31) {p : Section 32 × BitVec 32 × Nat}
    {q : Section 64 × BitVec 64 × Nat} (h : SiteLow p q) (hsettled : Settled d (siteAt q)) :
    Agree RelocLow (readReloc d p) (readReloc d q) := by
  obtain ⟨s, b, k⟩ := p
  obtain ⟨t, b', k'⟩ := q
  obtain ⟨hst, hb, hk, hin⟩ := h
  dsimp only at hst hb hk hin
  subst hk
  obtain ⟨e, hn⟩ := entry_low hst.offset (k := k) (n := t.esz) hin
  -- the first word is settled, and where it was read the next one lies at most right behind the file
  unfold readReloc
  unfold siteAt at hsettled
  dsimp only at hsettled ⊢
  rw [hst.esz, e]
  generalize t.offset + BitVec.ofNat 64 k * BitVec.ofNat 64 t.esz = o at hn hsettled ⊢
  refine (u32_agree hd (by omega) hsettled).bind fun off off' _ h1 e1 => ?_
  have hin1 := u32_inside (by omega) h1
  have hinfo : Settled d (o + BitVec.ofNat 64 4) := settled_of_le hd (by rw [toNat_field (by omega)]; omega)
  refine (u32_field hd (k := 4) (by omega) hinfo).bind fun info info' _ h2 e2 => ?_
  have hin2 := u32_inside (o := o + BitVec.ofNat 64 4) (by rw [toNat_field (by omega)]; omega) h2
  rw [toNat_field (by omega)] at hin2
  refine Agree.bind (R := fun x y => x = low y) ?_ fun a a' _ _ e3 => agree_pure ?_
  · unfold readAddend
    rw [hst.isRela]
    refine agree_ite Iff.rfl (fun _ _ => ?_) fun _ _ => .ok rfl
    have h8 : (o + 8).toNat = o.toNat + 8 := toNat_field (n := 8) (by omega)
    have hlow : low o + 8 = low (o + 8) := low_field_at o 8
    rw [hlow]
    exact s32_agree hd (by omega) (settled_of_le hd (by omega))
  · have hbits : ∀ (m : Nat) (n : Nat), m < 2 ^ (32 - n) →
        ((info >>> n) &&& BitVec.ofNat 32 m).toNat = ((info' >>> n) &&& BitVec.ofNat 64 m).toNat := by
      intro m n hm
      have hm32 : m < 2 ^ 32 := hm.trans_le (Nat.pow_le_pow_right (by decide) (by omega))
      have hle : ((info' >>> n) &&& BitVec.ofNat 64 m).toNat < 2 ^ 32 := by
        rw [BitVec.toNat_and]
        refine lt_of_le_of_lt Nat.and_le_right ?_
        rw [BitVec.toNat_ofNat, Nat.mod_eq_of_lt (by omega)]
        exact hm32
      rw [← toNat_low_of_lt hle, low_shr_and, low_ofNat (by omega), e2.1]
      rw [low_ofNat (by omega), BitVec.toNat_ofNat, Nat.mod_eq_of_lt hm32]
      exact hm
    refine ⟨?_, ?_, hbits 0xffffff 8 (by decide), e3, ?_⟩
    · rw [low_add (by omega), ← hb.1, ← e1.1]
    · have := hbits 0xff 0 (by decide)
      rwa [BitVec.ushiftRight_zero, BitVec.ushiftRight_zero] at this
    · have hbound := hb.2
      have hoff := e1.2
      show (b' + off').toNat < 2 ^ 33
      rw [BitVec.toNat_add_of_lt (by omega)]
      omega

/-! ## 3. Words of the image -/

/-- The key as a 32-bit run has it. -/
def wrapped (k : BitVec 64) : BitVec 64 := (low k).setWidth 64

/-- It is a word. -/
theorem toNat_wrapped_lt (k : BitVec 64) : (wrapped k).toNat < 2 ^ 32 := by
  unfold wrapped
  have hlt := (low k).isLt
  rw [BitVec.toNat_setWidth, Nat.mod_eq_of_lt (by omega)]
  exact hlt

/-- And the narrow run cannot tell it from the key. -/
theorem low_wrapped (k : BitVec 64) : low (wrapped k) = low k :=
  BitVec.setWidth_setWidth_of_le _ (by omega)

/-- **The narrow run asks a table for the same key, or finds nothing.** -/
def Finds {α : Type} (m : BitVec 64 → Option α) (k : BitVec 64) : Prop := k.toNat < 2 ^ 32 ∨ m (wrapped k) = none

instance {α : Type} (m : BitVec 64 → Option α) (k : BitVec 64) : Decidable (Finds m k) :=
  @instDecidableOr _ _ _ (decidable_of_iff _ Option.isNone_iff_eq_none)

section Image

variable {m : Image 32} {m' : Image 64} {off : BitVec 64}

/-- A key past the words is none of the wide run's, so the narrow one must not find the key it makes of it
    either. -/
theorem ImageLow.find (h : ImageLow m m') {k : BitVec 64} (hk : Finds m' k) : m (low k) = m' k := by
  by_cases hlt : k.toNat < 2 ^ 32
  · exact h.same k hlt
  · rw [h.inside k (.inr (by omega)), ← low_wrapped, h.same _ (toNat_wrapped_lt k), hk.resolve_left hlt]

/-- The key behind a word: at worst the first that is none, and 0 for the narrow run. -/
theorem finds_of_le {m : Image 64} (h : Inside m) {k : BitVec 64} (hk : k.toNat ≤ 2 ^ 32) : Finds m k := by
  by_cases hlt : k.toNat < 2 ^ 32
  · exact .inl hlt
  · refine .inr (h _ (.inl ?_))
    unfold wrapped
    rw [BitVec.toNat_setWidth, toNat_low, show k.toNat = 2 ^ 32 by omega]
    rfl

/-- A byte of the image that was read has a word as its key. -/
theorem Inside.key {m : Image 64} (h : Inside m) {k y : BitVec 64} (hk : operand (m k) = .ok y) :
    0 < k.toNat ∧ k.toNat < 2 ^ 32 := by
  by_contra hno
  rw [h k (by omega)] at hk
  cases hk

/-- **A word of the image whose first key is found** is the same word. -/
theorem ImageLow.rd32 (h : ImageLow m m') (hoff : off.toNat < 2 ^ 62) (hfind : Finds m' (off + 1)) :
    Agree (fun x y => x = low y) (rd32 m (low off)) (rd32 m' off) := by
  have hnat : ∀ n ≤ 4, (off + BitVec.ofNat 64 n).toNat = off.toNat + n := fun n hn => toNat_field (by omega)
  have hnext : ∀ n ≤ 4, off.toNat + n ≤ 2 ^ 32 → Agree (fun x y => x = low y)
      (operand (m (low off + BitVec.ofNat 32 n)) : Except Err (BitVec 32))
      (operand (m' (off + BitVec.ofNat 64 n)) : Except Err (BitVec 64)) := by
    intro n hn hle
    rw [low_field_at, h.find (finds_of_le h.inside (by rw [hnat n hn]; exact hle))]
    exact operand_agree _
  have hfirst : Agree (fun x y => x = low y) (operand (m (low off + 1)) : Except Err (BitVec 32))
      (operand (m' (off + 1)) : Except Err (BitVec 64)) := by
    rw [low_succ, h.find hfind]
    exact operand_agree _
  refine hfirst.bind fun x0 y0 _ h0 e0 => ?_
  have k0 := hnat 1 (by decide) ▸ (h.inside.key h0).2
  refine (hnext 2 (by decide) (by omega)).bind fun x1 y1 _ h1 e1 => ?_
  have k1 := hnat 2 (by decide) ▸ (h.inside.key h1).2
  refine (hnext 3 (by decide) (by omega)).bind fun x2 y2 _ h2 e2 => ?_
  have k2 := hnat 3 (by decide) ▸ (h.inside.key h2).2
  refine (hnext 4 (by decide) (by omega)).bind fun x3 y3 _ _ e3 => agree_pure ?_
  rw [join, join, low_or, low_or, low_or, low_shl (by omega), low_shl (by omega), low_shl (by omega),
    e0, e1, e2, e3]

/-- A word that was read ends inside the words: 0 is no key, so its first key has not wrapped. -/
theorem rd32_inside {m : Image 64} (h : Inside m) {y : BitVec 64} (hy : Mkflt.rd32 m off = .ok y) :
    off.toNat + 4 < 2 ^ 32 := by
  obtain ⟨_, h1, hy⟩ := bind_ok.mp hy
  obtain ⟨_, -, hy⟩ := bind_ok.mp hy
  obtain ⟨_, -, hy⟩ := bind_ok.mp hy
  obtain ⟨_, h4, -⟩ := bind_ok.mp hy
  have hfirst := h.key h1
  have hlast := (h.key h4).2
  have hoff : off.toNat + 1 < 2 ^ 32 := by
    have e : (off + 1).toNat = (off.toNat + 1) % 2 ^ 64 := BitVec.toNat_add off 1
    omega
  have e : (off + 4).toNat = off.toNat + 4 := toNat_field (n := 4) (by omega)
  omega

/-- A write below the end of the words makes no new kind of key. -/
theorem Inside.wr32 {m : Image 64} (h : Inside m) (hoff : off.toNat + 4 < 2 ^ 32) (v : BitVec 64) :
    Inside (wr32 m off v) := by
  have hkey : ∀ n ≤ 4, (off + BitVec.ofNat 64 n).toNat = off.toNat + n := fun n hn => toNat_field (by omega)
  have k1 := hkey 1 (by decide)
  have k2 := hkey 2 (by decide)
  have k3 := hkey 3 (by decide)
  have k4 := hkey 4 (by decide)
  have h1 := h.set (k := off + BitVec.ofNat 64 1) (by omega) (by omega) (byteOf v 0)
  have h2 := h1.set (k := off + BitVec.ofNat 64 2) (by omega) (by omega) (byteOf v 1)
  have h3 := h2.set (k := off + BitVec.ofNat 64 3) (by omega) (by omega) (byteOf v 2)
  exact h3.set (k := off + BitVec.ofNat 64 4) (by omega) (by omega) (byteOf v 3)

/-- The four bytes of a word are those of its low word. -/
theorem ImageLow.wr32 (h : ImageLow m m') (hoff : off.toNat + 4 < 2 ^ 32) (v : BitVec 64) :
    ImageLow (wr32 m (low off) (low v)) (wr32 m' off v) := by
  have hbyte : ∀ k ≤ 3, byteOf (low v) k = byteOf v k := fun k hk => by
    unfold byteOf
    rw [low_shr_byte v (8 * k) (by omega)]
  have hkey : ∀ n ≤ 4, low off + BitVec.ofNat 32 n = low (off + BitVec.ofNat 64 n) ∧
      (off + BitVec.ofNat 64 n).toNat = off.toNat + n :=
    fun n hn => ⟨low_field_at off n, toNat_field (by omega)⟩
  have k1 := hkey 1 (by decide)
  have k2 := hkey 2 (by decide)
  have k3 := hkey 3 (by decide)
  have k4 := hkey 4 (by decide)
  unfold Mkflt.wr32
  rw [hbyte 0 (by decide), hbyte 1 (by decide), hbyte 2 (by decide), hbyte 3 (by decide)]
  erw [k1.1, k2.1, k3.1, k4.1]
  have h1 := h.set (k := off + BitVec.ofNat 64 1) (by omega) (by omega) (byteOf v 0)
  have h2 := h1.set (k := off + BitVec.ofNat 64 2) (by omega) (by omega) (byteOf v 1)
  have h3 := h2.set (k := off + BitVec.ofNat 64 3) (by omega) (by omega) (byteOf v 2)
  exact h3.set (k := off + BitVec.ofNat 64 4) (by omega) (by omega) (byteOf v 3)

end Image

-- The encoders and their constants: masks, shifts and sums of the low words only.

theorem low_putU (x v : BitVec 64) : low (putU x (hi20 v)) = putU (low x) (hi20 (low v)) := by
  have h : low (hi20 v &&& BitVec.ofNat 64 0xfffff) = hi20 (low v) &&& BitVec.ofNat 32 0xfffff := by
    unfold hi20
    rw [low_shr_and _ _ 12 (by decide), low_add (by omega), low_ofNat (by omega), low_ofNat (by omega)]
  unfold putU
  rw [low_or, low_and, low_shl (by omega), h, low_ofNat (by omega)]

/-- `lo12` is what `hi20` leaves, so it rounds alike. -/
theorem lo12_low (v : BitVec 64) : lo12 (low v) = low (lo12 v) := by
  have h := low_lo12 (w := 32) (by omega) (low v)
  rw [low_32, low_32] at h
  rw [h, low_lo12 (by omega)]

/-- The lower half is cut to twelve bits before it is shifted into its field. -/
theorem low_putI (x v : BitVec 64) : low (putI x v) = putI (low x) (low v) := by
  unfold putI
  rw [low_or, low_and, low_shl (by omega), low_and, low_ofNat (by omega), low_ofNat (by omega)]

/-- A masked right shift, the building block of the other encoders. -/
theorem low_field (v : BitVec 64) (n m : Nat) (hm : m < 2 ^ (32 - n)) :
    low ((v >>> n) &&& BitVec.ofNat 64 m) = (low v >>> n) &&& BitVec.ofNat 32 m := by
  have hm32 : m < 2 ^ 32 := hm.trans_le (Nat.pow_le_pow_right (by decide) (by omega))
  rw [low_shr_and v _ n (by rwa [low_ofNat (by omega), BitVec.toNat_ofNat, Nat.mod_eq_of_lt hm32]),
    low_ofNat (by omega)]

theorem low_putS (x v : BitVec 64) : low (putS x v) = putS (low x) (low v) := by
  unfold putS
  rw [low_or, low_or, low_and x, low_shl (by omega), low_shl (by omega), low_and v,
    low_field v 5 0x7f (by decide), low_ofNat (by omega), low_ofNat (by omega)]

theorem low_putB (x v : BitVec 64) : low (putB x v) = putB (low x) (low v) := by
  unfold putB
  rw [low_or, low_or, low_or, low_or, low_and x, low_shl (by omega), low_shl (by omega),
    low_shl (by omega), low_shl (by omega), low_field v 12 0x1 (by decide),
    low_field v 5 0x3f (by decide), low_field v 1 0xf (by decide), low_field v 11 0x1 (by decide),
    low_ofNat (by omega)]

theorem low_putJ (x v : BitVec 64) : low (putJ x v) = putJ (low x) (low v) := by
  unfold putJ
  rw [low_or, low_or, low_or, low_or, low_and x, low_shl (by omega), low_shl (by omega),
    low_shl (by omega), low_shl (by omega), low_field v 20 0x1 (by decide),
    low_field v 1 0x3ff (by decide), low_field v 11 0x1 (by decide), low_field v 12 0xff (by decide),
    low_ofNat (by omega)]

/-! ## 4. One entry -/

/-- The reach of a branch or `jal` instruction, in bits. -/
def reach (t : Nat) : Nat := if t = R.branch then 13 else 21

/-- What `check_range` accepts, as an inequality of integers. -/
def InReach {w : Nat} (bits : Nat) (v : BitVec w) : Prop :=
  -(2 ^ (bits - 1)) ≤ v.toInt ∧ v.toInt < 2 ^ (bits - 1)

instance {w : Nat} (bits : Nat) (v : BitVec w) : Decidable (InReach bits v) :=
  inferInstanceAs (Decidable (_ ∧ _))

/-- A distance that has 31 bits and a sign is the same number at both widths. -/
theorem toInt_low_of_range {v : BitVec 64} (h : -(2 ^ 31) ≤ v.toInt ∧ v.toInt < 2 ^ 31) :
    (low v).toInt = v.toInt := by
  have e : (low v).toInt = v.toInt.bmod (2 ^ 32) := by
    rw [low, BitVec.toInt_setWidth, BitVec.toInt_eq_toNat_bmod, Int.bmod_bmod_of_dvd (by decide)]
  rw [e]
  exact Int.bmod_eq_of_le (by omega) (by omega)

/-- `check_range` is the reach of the instruction, at either width. -/
theorem checkRange_eq {w : Nat} (hw : w = 32 ∨ w = 64) {bits : Nat} (hb : bits = 13 ∨ bits = 21)
    (v : BitVec w) (what : String) (off : BitVec w) :
    ∃ text, checkRange v bits what off = dieIf (¬ InReach bits v) text := by
  have hlimit : ((1 : BitVec w) <<< (bits - 1)).toInt = 2 ^ (bits - 1) ∧
      (-((1 : BitVec w) <<< (bits - 1))).toInt = -(2 ^ (bits - 1)) := by
    rcases hw with rfl | rfl <;> rcases hb with rfl | rfl <;> decide
  refine ⟨_, if_congr ?_ rfl rfl⟩
  rw [BitVec.sle_eq_decide, BitVec.slt_eq_decide, hlimit.1, hlimit.2, decide_eq_true_eq,
    decide_eq_true_eq, InReach]
  omega

/-- What `check_range` lets through is in reach. -/
theorem inReach_of_checkRange {w : Nat} (hw : w = 32 ∨ w = 64) {bits : Nat} (hb : bits = 13 ∨ bits = 21)
    {v off : BitVec w} {what : String} {u : Unit} (h : checkRange v bits what off = .ok u) : InReach bits v := by
  obtain ⟨text, e⟩ := checkRange_eq hw hb v what off
  by_contra hno
  rw [e, dieIf, if_pos hno] at h
  cases h

/-- In reach at 64 bits is in reach at 32; the other way round has to be asked, for there the distance has
    lost its upper word. -/
theorem checkRange_agree {v : BitVec 64} {bits : Nat} (hb : bits = 13 ∨ bits = 21)
    (h : InReach bits (low v) → InReach bits v) (what : String) (off : BitVec 32) (off' : BitVec 64) :
    Agree (fun _ _ => True) (checkRange (low v) bits what off) (checkRange v bits what off') := by
  obtain ⟨t, e⟩ := checkRange_eq (.inl rfl) hb (low v) what off
  obtain ⟨t', e'⟩ := checkRange_eq (.inr rfl) hb v what off'
  rw [e, e']
  refine dieIf_agree (not_congr ⟨h, fun hv => ?_⟩)
  have hle : (2 : Int) ^ (bits - 1) ≤ 2 ^ 20 := by rcases hb with rfl | rfl <;> decide
  unfold InReach at hv ⊢
  rw [toInt_low_of_range (by omega)]
  exact hv

/-- The types that read the field they patch. -/
def readsField (t : Nat) : Bool :=
  [R.pcrelHi20, R.pcrelLo12I, R.pcrelLo12S, R.hi20, R.lo12I, R.lo12S, R.branch, R.jal, R.call, R.callPlt,
    R.add32, R.sub32].contains t

/-- The types among them that come to the field as soon as they have the symbol. -/
def plainTypes : List Nat := [R.pcrelHi20, R.hi20, R.lo12I, R.lo12S, R.call, R.callPlt, R.add32, R.sub32]

/-- None of them asks for a reach or a label first. -/
theorem readsField_plain : ∀ t ∈ plainTypes, readsField t = true ∧ ¬ (t = R.branch ∨ t = R.jal) ∧
    ¬ (t = R.pcrelLo12I ∨ t = R.pcrelLo12S) := by decide

/-- **The field of an entry is one place at both widths.** A plain write has to end inside the words, for
    it asks nothing. A field that is read first may be missing, at both widths: and it is only read by a
    branch in reach, or a LO12 whose label was found. -/
structure EntryBounds (host : Host) (syms : List (Symbol 64)) (st : LinkState 64) (r : Reloc 64) : Prop where
  writes : r.rtype = R.rv32Pcrel ∨ r.rtype = R.set32 →
    Returns (symaddr host syms r.rsym) fun _ => r.loc.toNat + 4 < 2 ^ 32
  reads : readsField r.rtype = true → Returns (symaddr host syms r.rsym) fun S =>
    (r.rtype = R.branch ∨ r.rtype = R.jal → InReach (reach r.rtype) (S + r.addend - r.loc)) →
    (r.rtype = R.pcrelLo12I ∨ r.rtype = R.pcrelLo12S → (st.hi20At S).isSome = true) →
    Finds st.image (r.loc + 1)

/-- **The entry is not in reach, and its label no HI20 site, modulo `2 ^ 32` only.** -/
structure EntryNear (host : Host) (syms : List (Symbol 64)) (st : LinkState 64) (r : Reloc 64) : Prop where
  reaches : r.rtype = R.branch ∨ r.rtype = R.jal → Returns (symaddr host syms r.rsym) fun S =>
    InReach (reach r.rtype) (low (S + r.addend - r.loc)) → InReach (reach r.rtype) (S + r.addend - r.loc)
  labels : r.rtype = R.pcrelLo12I ∨ r.rtype = R.pcrelLo12S →
    Returns (symaddr host syms r.rsym) fun S => Finds st.hi20At S

instance (host : Host) (syms : List (Symbol 64)) (st : LinkState 64) (r : Reloc 64) :
    Decidable (EntryBounds host syms st r) :=
  decidable_of_iff (_ ∧ _) ⟨fun h => ⟨h.1, h.2⟩, fun h => ⟨h.writes, h.reads⟩⟩

instance (host : Host) (syms : List (Symbol 64)) (st : LinkState 64) (r : Reloc 64) :
    Decidable (EntryNear host syms st r) :=
  decidable_of_iff (_ ∧ _) ⟨fun h => ⟨h.1, h.2⟩, fun h => ⟨h.reaches, h.labels⟩⟩

/-- What the wide run keeps: every key of its two tables is a word. -/
structure WordKeys (st : LinkState 64) : Prop where
  image : Inside st.image
  sites : ∀ k : BitVec 64, 2 ^ 32 ≤ k.toNat → st.hi20At k = none

/-- The image and the side table, alike under every key that is a word. -/
structure StateLow (st : LinkState 32) (st' : LinkState 64) : Prop where
  image : ∀ k : BitVec 64, k.toNat < 2 ^ 32 → st.image (low k) = st'.image k
  hi20At : ∀ k : BitVec 64, k.toNat < 2 ^ 32 → st.hi20At (low k) = (st'.hi20At k).map low
  keys : WordKeys st'

theorem StateLow.imageLow {st : LinkState 32} {st' : LinkState 64} (h : StateLow st st') :
    ImageLow st.image st'.image := ⟨h.image, h.keys.image⟩

section Apply

variable {host : Host} {syms : List (Symbol 32)} {syms' : List (Symbol 64)} {st : LinkState 32}
  {st' : LinkState 64} {off : BitVec 64}

/-- A patch writes the same word to the same place. -/
theorem StateLow.write (h : StateLow st st') (hoff : off.toNat + 4 < 2 ^ 32) (v : BitVec 64) :
    StateLow ⟨wr32 st.image (low off) (low v), st.hi20At⟩ ⟨wr32 st'.image off v, st'.hi20At⟩ :=
  have hm := h.imageLow.wr32 hoff v
  ⟨hm.same, h.hi20At, ⟨hm.inside, h.keys.sites⟩⟩

/-- **A patch is the same patch**, of a field that is found or missing at both widths. What the entry has
    done before, it may have done for a field inside the words only. -/
theorem modify_agree (h : off.toNat + 4 < 2 ^ 32 → StateLow st st') (him : ImageLow st.image st'.image)
    (hoff : off.toNat < 2 ^ 62) (hfind : Finds st'.image (off + 1)) {f : BitVec 32 → BitVec 32}
    {g : BitVec 64 → BitVec 64} (hfg : ∀ y, f (low y) = low (g y)) :
    Agree StateLow (modify st (low off) f) (modify st' off g) := by
  refine (him.rd32 hoff hfind).bind fun x y _ hy e => agree_pure ?_
  have hin := rd32_inside him.inside hy
  rw [e, hfg]
  exact (h hin).write hin (g y)

/-- The same where the entry has changed nothing before. -/
theorem StateLow.modify (h : StateLow st st') (hoff : off.toNat < 2 ^ 62) (hfind : Finds st'.image (off + 1))
    {f : BitVec 32 → BitVec 32} {g : BitVec 64 → BitVec 64} (hfg : ∀ y, f (low y) = low (g y)) :
    Agree StateLow (modify st (low off) f) (modify st' off g) :=
  modify_agree (fun _ => h) h.imageLow hoff hfind hfg

/-- A HI20 entry's own place in the side table. -/
theorem StateLow.site (h : StateLow st st') (hoff : off.toNat < 2 ^ 32) (v : BitVec 64) :
    StateLow ⟨st.image, fun i => if i = low off then some (low v) else st.hi20At i⟩
      ⟨st'.image, fun i => if i = off then some v else st'.hi20At i⟩ := by
  refine ⟨h.image, fun k hk => ?_, ⟨h.keys.image, fun k hk => ?_⟩⟩
  · dsimp only
    by_cases hkl : k = off
    · rw [if_pos (congrArg low hkl), if_pos hkl]
      rfl
    · rw [if_neg fun e => hkl ((low_inj hk hoff).mp e), if_neg hkl]
      exact h.hi20At k hk
  · dsimp only
    rw [if_neg fun e => by rw [e] at hk; omega]
    exact h.keys.sites k hk

/-- A label finds its HI20 at both widths or at neither. -/
theorem StateLow.lookup (h : StateLow st st') {S : BitVec 64} (hS : Finds st'.hi20At S) :
    st.hi20At (low S) = (st'.hi20At S).map low := by
  by_cases hlt : S.toNat < 2 ^ 32
  · exact h.hi20At S hlt
  · rw [h.keys.sites S (by omega), ← low_wrapped, h.hi20At _ (toNat_wrapped_lt S), hS.resolve_left hlt]

/-- **One entry does the same at both widths.** -/
theorem applyReloc_agree (hsyms : List.Forall₂ SymbolLow syms syms') {r : Reloc 32} {r' : Reloc 64}
    (hr : RelocLow r r') (hst : StateLow st st') (hb : EntryBounds host syms' st' r')
    (hn : EntryNear host syms' st' r') :
    Agree StateLow (applyReloc host syms st r) (applyReloc host syms' st' r') := by
  have hloc := hr.bound
  have hsym := symaddr_agree host hsyms r'.rsym
  have hdist : ∀ s' : BitVec 64, low s' + r.addend - low r'.loc = low (s' + r'.addend - r'.loc) :=
    fun s' => by rw [low_sub (by omega), low_add (by omega), hr.addend]
  have haddr : ∀ s' : BitVec 64, low s' + r.addend = low (s' + r'.addend) :=
    fun s' => by rw [low_add (by omega), hr.addend]
  -- a type that neither is a branch nor names a label comes to its field at once
  have hplain : ∀ {t s'}, r'.rtype = t → symaddr host syms' r'.rsym = .ok s' →
      t ∈ plainTypes → Finds st'.image (r'.loc + 1) := by
    intro t s' ht hs hmem
    obtain ⟨hreads, hbranch, hlo⟩ := readsField_plain t hmem
    rw [← ht] at hreads hbranch hlo
    exact hb.reads hreads s' hs (fun h => absurd h hbranch) fun h => absurd h hlo
  unfold applyReloc
  rw [hr.rtype, hr.rsym, hr.loc]
  -- branch by branch, in the order of the source: NONE and RELAX, 32, 32_PCREL, ...
  refine agree_ite Iff.rfl (fun _ _ => .ok hst) fun _ _ => ?_
  refine agree_ite Iff.rfl (fun _ _ => .error _ _) fun _ _ => ?_
  refine agree_ite Iff.rfl (fun _ ht => ?_) fun _ _ => ?_
  · refine hsym.bind fun s s' _ hs e => agree_pure ?_
    rw [e, hdist]
    exact hst.write (hb.writes (.inl ht) _ hs) _
  refine agree_ite Iff.rfl (fun _ _ => .error _ _) fun _ _ => ?_
  refine agree_ite Iff.rfl (fun _ ht => ?_) fun _ _ => ?_
  · refine hsym.bind fun s s' _ hs e => ?_
    rw [e, hdist]
    -- the side table is written before the word is read, so both only count where the word is there
    have hsite : r'.loc.toNat + 4 < 2 ^ 32 → StateLow
        { st with hi20At := fun i => if i = low r'.loc then some (low (s' + r'.addend - r'.loc)) else st.hi20At i }
        { st' with hi20At := fun i => if i = r'.loc then some (s' + r'.addend - r'.loc) else st'.hi20At i } :=
      fun _ => hst.site (by omega) _
    have hfind := hplain ht hs (by decide)
    refine modify_agree hsite hst.imageLow (by omega) hfind fun y => ?_
    exact (low_putU y _).symm
  refine agree_ite Iff.rfl (fun _ ht => ?_) fun _ _ => ?_
  -- a LO12: its symbol is the label of a HI20
  · refine hsym.bind fun site site' _ hs e => ?_
    rw [e, hst.lookup (hn.labels ht _ hs)]
    have hreads : readsField r'.rtype = true := by rcases ht with ht | ht <;> rw [ht] <;> decide
    have hbranch : ¬ (r'.rtype = R.branch ∨ r'.rtype = R.jal) := by rcases ht with ht | ht <;> rw [ht] <;> decide
    cases hv : st'.hi20At site' with
    | none => exact .error _ _
    | some v =>
      have hfind := hb.reads hreads _ hs (fun h => absurd h hbranch) fun _ => by rw [hv]; rfl
      refine agree_ite Iff.rfl (fun _ _ => ?_) fun _ _ => ?_
      · exact hst.modify (by omega) hfind fun y => by rw [lo12_low, low_putI]
      · exact hst.modify (by omega) hfind fun y => by rw [lo12_low, low_putS]
  refine agree_ite Iff.rfl (fun _ ht => ?_) fun _ _ => ?_
  · refine hsym.bind fun s s' _ hs e => ?_
    rw [e, haddr]
    exact hst.modify (by omega) (hplain ht hs (by decide)) fun y => (low_putU y _).symm
  refine agree_ite Iff.rfl (fun _ ht => ?_) fun _ _ => ?_
  · refine hsym.bind fun s s' _ hs e => ?_
    rw [e, haddr]
    exact hst.modify (by omega) (hplain ht hs (by decide)) fun y => by rw [lo12_low, low_putI]
  refine agree_ite Iff.rfl (fun _ ht => ?_) fun _ _ => ?_
  · refine hsym.bind fun s s' _ hs e => ?_
    rw [e, haddr]
    exact hst.modify (by omega) (hplain ht hs (by decide)) fun y => by rw [lo12_low, low_putS]
  refine agree_ite Iff.rfl (fun _ ht => ?_) fun _ _ => ?_
  -- a branch, and then `jal`: the field is read only where `check_range` lets both runs through
  · refine hsym.bind fun s s' _ hs e => ?_
    have hreach := hn.reaches (.inl ht) _ hs
    have hfind := hb.reads (by rw [ht]; decide) _ hs
    rw [reach, if_pos ht] at hreach hfind
    rw [e, hdist]
    refine (checkRange_agree (.inl rfl) hreach _ _ _).bind fun _ _ _ hrange _ => ?_
    refine hst.modify (by omega) (hfind (fun _ => inReach_of_checkRange (.inr rfl) (.inl rfl) hrange) fun h => ?_)
      fun y => (low_putB y _).symm
    rw [ht] at h
    exact absurd h (by decide)
  refine agree_ite Iff.rfl (fun _ ht => ?_) fun _ _ => ?_
  · refine hsym.bind fun s s' _ hs e => ?_
    have hreach := hn.reaches (.inr ht) _ hs
    have hfind := hb.reads (by rw [ht]; decide) _ hs
    rw [reach, if_neg (by rw [ht]; decide)] at hreach hfind
    rw [e, hdist]
    refine (checkRange_agree (.inr rfl) hreach _ _ _).bind fun _ _ _ hrange _ => ?_
    refine hst.modify (by omega) (hfind (fun _ => inReach_of_checkRange (.inr rfl) (.inr rfl) hrange) fun h => ?_)
      fun y => (low_putJ y _).symm
    rw [ht] at h
    exact absurd h (by decide)
  refine agree_ite Iff.rfl (fun _ ht => ?_) fun _ _ => ?_
  · refine hsym.bind fun s s' _ hs e => ?_
    have hfind : Finds st'.image (r'.loc + 1) :=
      ht.elim (fun ht => hplain ht hs (by decide)) fun ht => hplain ht hs (by decide)
    have hlow4 : low r'.loc + 4 = low (r'.loc + 4) := low_field_at r'.loc 4
    rw [e, hdist, hlow4]
    have hfirst := hst.modify (f := (putU · (hi20 (low (s' + r'.addend - r'.loc)))))
      (g := (putU · (hi20 (s' + r'.addend - r'.loc)))) (by omega) hfind fun y => (low_putU y _).symm
    refine hfirst.bind fun t t' _ ht' hlow => ?_
    -- the first word was there, so the second starts at the last word at most
    obtain ⟨_, hy, -⟩ := bind_ok.mp ht'
    have hin := rd32_inside hst.keys.image hy
    have hnext : (r'.loc + 4).toNat = r'.loc.toNat + 4 := toNat_field (n := 4) (by omega)
    refine hlow.modify (by omega) ?_ fun y => by rw [lo12_low, low_putI]
    exact finds_of_le hlow.keys.image (by rw [toNat_succ (by omega)]; omega)
  refine agree_ite Iff.rfl (fun _ _ => ?_) fun _ _ => ?_
  · refine hsym.bind fun s s' _ hs e => ?_
    rw [e, haddr]
    refine agree_ite Iff.rfl (fun _ ht => ?_) fun _ _ => ?_
    · exact hst.modify (by omega) (hplain ht hs (by decide)) fun y => (low_add (by omega) y _).symm
    refine agree_ite Iff.rfl (fun _ ht => ?_) fun _ _ => ?_
    · exact hst.modify (by omega) (hplain ht hs (by decide)) fun y => (low_sub (by omega) y _).symm
    refine agree_ite Iff.rfl (fun _ ht => ?_) fun _ _ => .error _ _
    exact agree_pure (hst.write (hb.writes (.inr ht) _ hs) _)
  exact agree_ite Iff.rfl (fun _ _ => .error _ _) fun _ _ => .error _ _

end Apply

/-! ## 5. The loop, the entry point, the file -/

/-- A condition on an entry in the state the loop comes to it with. -/
abbrev EntryGuard := Host → List (Symbol 64) → LinkState 64 → Reloc 64 → Prop

/-- The table of a site is smaller than the sign bit, its entry is settled, and `P` holds of what is read. -/
def SiteHeld (P : EntryGuard) (host : Host) (d : List UInt8) (syms : List (Symbol 64)) (st : LinkState 64)
    (q : Section 64 × BitVec 64 × Nat) : Prop :=
  q.1.size.toNat < 2 ^ 31 ∧ Settled d (siteAt q) ∧ Returns (readReloc d q) (P host syms st)

/-- What the two runs need of an entry. -/
def EntryAlike : EntryGuard := fun host syms st r => EntryBounds host syms st r ∧ EntryNear host syms st r

/-- **The loop does the same**, up to the entry that stops it. -/
theorem relocLoop_agree {host : Host} {d : List UInt8} (hd : d.length < 2 ^ 31) {syms : List (Symbol 32)}
    {syms' : List (Symbol 64)} {sec : List (Section 32)} {sec' : List (Section 64)} {l : Layout 32}
    {l' : Layout 64} (hsec : List.Forall₂ SectionLow sec sec') (hl : LayoutLow l l')
    (hsyms : List.Forall₂ SymbolLow syms syms') {m : Image 32} {m' : Image 64} (hm : ImageLow m m')
    (h : EachRound (relocStep host d syms') (SiteHeld EntryAlike host d syms') (relocSites sec' l')
      ⟨m', fun _ => none⟩) :
    Agree StateLow (relocLoop host d syms (relocSites sec l) m) (relocLoop host d syms' (relocSites sec' l') m') := by
  have hstart : StateLow ⟨m, fun _ => none⟩ ⟨m', fun _ => none⟩ :=
    ⟨hm.same, fun _ _ => rfl, ⟨hm.inside, fun _ _ => rfl⟩⟩
  unfold relocLoop
  rw [relocSites_eq, relocSites_eq] at *
  -- section by section, because the size of a table is asked for where the run comes to its first entry
  generalize (⟨m, fun _ => none⟩ : LinkState 32) = st at hstart ⊢
  generalize (⟨m', fun _ => none⟩ : LinkState 64) = st' at hstart h ⊢
  induction hsec generalizing st st' with
  | nil => exact agree_pure hstart
  | @cons s t rest rest' hst _ ih =>
    rw [List.flatMap_cons] at h
    rw [List.flatMap_cons, List.flatMap_cons, List.foldlM_append, List.foldlM_append]
    obtain ⟨hhere, hthere⟩ := h.append
    have hsites : List.Forall₂ SiteLow (sitesOf l s) (sitesOf l' t) := by
      refine sitesOf_low hst hl fun q hq => ?_
      obtain ⟨tail, hcons⟩ := List.head?_eq_some_iff.mp hq
      rw [hcons] at hhere
      exact hhere.1.1
    refine Agree.bind (R := StateLow) ?_ fun st1 st1' _ h1 hst1 => ih st1 st1' hst1 (hthere _ h1)
    refine Agree.foldlM_each hsites (fun st st' p q hpq hst hq => ?_) hstart hhere
    refine (readReloc_agree hd hpq hq.2.1).bind fun r r' _ hr' hr => ?_
    obtain ⟨hb, hn⟩ := hq.2.2 r' hr'
    exact applyReloc_agree hsyms hr hst hb hn

/-- The symbols that have an address are called `_start` by both runs or by neither. -/
def StartHeld (d : List UInt8) (sec : List (Section 64)) (l : Layout 64) : Prop :=
  ∀ p ∈ findSymtab sec, ∀ k ∈ List.range (p.1.size.toNat / 16), Returns (readSymbol d l p.1 p.2 k) fun t =>
    t.addr.isSome = true → (narrowSymname d sec k = startName ↔ t.name = startName)

instance (d : List UInt8) (sec : List (Section 64)) (l : Layout 64) : Decidable (StartHeld d sec l) :=
  inferInstanceAs (Decidable (∀ p ∈ findSymtab sec, _))

/-- A symbol whose name was read twice over, and is the entry point's for both runs or for neither. -/
theorem NameRead.start {d : List UInt8} {sec : List (Section 64)} {l : Layout 64} (h : StartHeld d sec l)
    {s : Symbol 32} {t : Symbol 64} (hname : NameRead d sec l s t) (ht : t.addr.isSome = true) :
    s.name = startName ↔ t.name = startName := by
  obtain ⟨p, hp, k, hk, hread, e⟩ := hname
  rw [e]
  exact h p hp k (List.mem_range.mpr hk) t hread ht

/-- The last `_start` that has an address, by induction on the symbols. -/
theorem entryPoint_low {syms : List (Symbol 32)} {syms' : List (Symbol 64)}
    (h : List.Forall₂ (fun s t => SymbolLow s t ∧
      (t.addr.isSome = true → (s.name = startName ↔ t.name = startName))) syms syms') :
    entryPoint syms = low (entryPoint syms') := by
  have key : ∀ {o : Option (BitVec 32)} {o' : Option (BitVec 64)}, o = o'.map low →
      syms.foldl (fun e s => if s.name = startName ∧ s.addr.isSome then s.addr else e) o =
        (syms'.foldl (fun e s => if s.name = startName ∧ s.addr.isSome then s.addr else e) o').map
          low := by
    induction h with
    | nil => exact fun ho => ho
    | @cons s t rest rest' hst hrest ih =>
      intro o o' ho
      obtain ⟨haddr, hname⟩ := hst
      rw [List.foldl_cons, List.foldl_cons]
      apply ih
      have hiff : (s.name = startName ∧ s.addr.isSome = true) ↔ (t.name = startName ∧ t.addr.isSome = true) := by
        rw [show s.addr = _ from haddr, Option.isSome_map]
        exact and_congr_left hname
      rw [apply_ite (Option.map low), ← show s.addr = _ from haddr, ← ho]
      exact if_congr hiff rfl rfl
  unfold entryPoint
  rw [key (show none = Option.map low none from rfl)]
  cases List.foldl _ none syms' with
  | none => rfl
  | some a => rfl

/-- Four bytes are the low word. -/
theorem be32_low (n : BitVec 64) : be32 (low n) = be32 n := by
  unfold be32
  rw [low_shr_byte n 24 (by decide), low_shr_byte n 16 (by decide), low_shr_byte n 8 (by decide),
    low_byte]

/-- So the header is made of low words, and 64 is added at either width. -/
theorem header_low (len entry stack : BitVec 64) :
    header (low len) (low entry) (low stack) = header len entry stack := by
  have h : ∀ x : BitVec 64, BitVec.ofNat 32 flatHdrSize + low x = low (BitVec.ofNat 64 flatHdrSize + x) :=
    fun x => by rw [low_add (by omega), low_ofNat (by omega)]
  unfold header
  dsimp only
  rw [h, h, be32_low, be32_low, be32_low]
  rfl

/-- A chunk whose keys are below the sign bit. -/
theorem unpack_agree {m : Image 32} {m' : Image 64} (hm : ImageLow m m') {k last : BitVec 64}
    (hk : k.toNat < 2 ^ 31) (hlast : last.toNat < 2 ^ 31) :
    Agree Eq (unpack m (low k) (low last)) (unpack m' k last) := by
  unfold unpack
  rw [toInt_low hk, toInt_low hlast, toInt_wide (by omega), toInt_wide (by omega)]
  refine (agree_mapM_self (R := Eq) fun i hi => ?_).mono fun a b h => List.forall₂_eq_eq_eq ▸ h
  rw [List.mem_range] at hi
  have e : (k + BitVec.ofNat 64 i).toNat = k.toNat + i := by
    rw [BitVec.toNat_add, BitVec.toNat_ofNat, Nat.mod_eq_of_lt (by omega : i < 2 ^ 64),
      Nat.mod_eq_of_lt (by omega)]
  rw [← low_ofNat (w := 64) (by omega), ← low_add (by omega), hm.same _ (by omega)]
  cases m' (k + BitVec.ofNat 64 i) with
  | none => exact .error _ _
  | some b => exact .ok rfl

/-- **The image is written in the same chunks**, as long as no chunk's last key wraps: that is how far the
    narrow writer comes. -/
theorem blob_agree {m : Image 32} {m' : Image 64} (hm : ImageLow m m') {len : BitVec 32}
    {len' : BitVec 64} (hlen : Word 31 len len') (hmax : len'.toNat ≤ lastKey 32) :
    Agree Eq (blob m len) (blob m' len') := by
  have hlast := lastKey_lt (w := 32)
  unfold blob
  rw [hlen.toInt, toInt_wide (by omega)]
  refine Agree.bind (R := Eq) ?_ fun a b _ _ e => agree_pure (congrArg List.flatten e)
  refine (agree_mapM_self (R := Eq) fun j hj => ?_).mono fun a b h => List.forall₂_eq_eq_eq ▸ h
  rw [List.mem_range] at hj
  -- the keys of chunk `j` are `200 * j + 1` to `200 * j + 200` at both widths;
  -- the chunk's last key stays inside, because `lastKey` is a multiple of 200
  have hchunk : 200 * j + 200 ≤ lastKey 32 := by
    unfold lastKey at hmax ⊢
    omega
  have ek : (1 : BitVec 64) + 200 * BitVec.ofNat 64 j = BitVec.ofNat 64 (200 * j + 1) := by
    rw [Nat.add_comm, BitVec.ofNat_add, BitVec.ofNat_mul]
    rfl
  have ek' : (1 : BitVec 32) + 200 * BitVec.ofNat 32 j = low (BitVec.ofNat 64 (200 * j + 1)) := by
    rw [low_ofNat (by omega), Nat.add_comm, BitVec.ofNat_add, BitVec.ofNat_mul]
    rfl
  have el : BitVec.ofNat 64 (200 * j + 1) + 199 = BitVec.ofNat 64 (200 * j + 200) := by
    rw [show 200 * j + 200 = 200 * j + 1 + 199 from rfl, BitVec.ofNat_add (200 * j + 1)]
    rfl
  have el' : low (BitVec.ofNat 64 (200 * j + 1)) + 199 = low (BitVec.ofNat 64 (200 * j + 200)) := by
    rw [← el, low_add (by omega)]
    rfl
  have hn : ∀ n ≤ 200 * j + 200, (BitVec.ofNat 64 n).toNat = n := fun n hn => by
    rw [BitVec.toNat_ofNat, Nat.mod_eq_of_lt (by omega)]
  have h1 := hn (200 * j + 1) (by omega)
  have h2 := hn (200 * j + 200) (le_refl _)
  have hslt : len.slt (low (BitVec.ofNat 64 (200 * j + 200))) = len'.slt (BitVec.ofNat 64 (200 * j + 200)) := by
    rw [BitVec.slt_eq_decide, BitVec.slt_eq_decide, hlen.toInt, toInt_low (by omega),
      toInt_wide (x := BitVec.ofNat 64 (200 * j + 200)) (by omega)]
  unfold part
  dsimp only
  rw [ek, ek', el, el', hslt]
  by_cases hs : len'.slt (BitVec.ofNat 64 (200 * j + 200)) = true
  · rw [if_pos hs, if_pos hs, hlen.1]
    exact unpack_agree hm (by omega) hlen.2
  · rw [if_neg hs, if_neg hs]
    exact unpack_agree hm (by omega) (by omega)

/-! ## 6. The whole script -/

/-- `p` holds of the header and the sections, where they can be read. -/
def SectionsRead (host : Host) (d : List UInt8) (p : Header 64 → List (Section 64) → Prop) : Prop :=
  Returns (readHeader host d) fun e => Returns (readSections d e) (p e)

/-- **The two runs go the same way**, as far as the script gets: each field is a condition on what the
    64-bit run meets, and asked only where it comes to that stage. `P` is the condition on an entry. -/
structure Follows (P : EntryGuard) (host : Host) (d : List UInt8) : Prop where
  file : d.length < 2 ^ 31
  headers : Returns (readHeader host d) (HeadersSettled d)
  layout : SectionsRead host d fun _ sec => NarrowLayout sec
  names : SectionsRead host d fun e sec => storedEnd sec ≠ 0 → NamesHeld host d e sec
  symbols : SectionsRead host d fun _ sec => storedEnd sec ≠ 0 →
    Returns (blitAll host sec (Mkflt.layout sec)) fun _ => SymbolsSettled d sec (Mkflt.layout sec)
  entries : Returns (load host d) fun obj => EachRound (relocStep host d obj.syms)
    (SiteHeld P host d obj.syms) (relocSites obj.sec obj.lay) ⟨obj.image, fun _ => none⟩
  output : Returns (load host d) fun obj =>
    Returns (relocLoop host d obj.syms (relocSites obj.sec obj.lay) obj.image) fun _ =>
      obj.lay.imageLen.toNat ≤ lastKey 32 ∧ StartHeld d obj.sec obj.lay

instance (host : Host) (d : List UInt8) (p : Header 64 → List (Section 64) → Prop)
    [∀ e sec, Decidable (p e sec)] : Decidable (SectionsRead host d p) :=
  inferInstanceAs (Decidable (Returns _ _))

instance : ∀ host syms st r, Decidable (EntryAlike host syms st r) :=
  fun _ _ _ _ => inferInstanceAs (Decidable (_ ∧ _))

instance (P : EntryGuard) [∀ host syms st r, Decidable (P host syms st r)] (host : Host) (d : List UInt8)
    (syms : List (Symbol 64)) (st : LinkState 64) (q : Section 64 × BitVec 64 × Nat) :
    Decidable (SiteHeld P host d syms st q) := inferInstanceAs (Decidable (_ ∧ _ ∧ Returns _ _))

instance (P : EntryGuard) [∀ host syms st r, Decidable (P host syms st r)] (host : Host) (d : List UInt8) :
    Decidable (Follows P host d) :=
  decidable_of_iff (_ ∧ _ ∧ _ ∧ _ ∧ _ ∧ _ ∧ _) ⟨fun ⟨h1, h2, h3, h4, h5, h6, h7⟩ => ⟨h1, h2, h3, h4, h5, h6, h7⟩,
    fun h => ⟨h.file, h.headers, h.layout, h.names, h.symbols, h.entries, h.output⟩⟩

/-- **The object is read, laid out and patched inside the narrow integers**, as far as the run gets. -/
def Bounded (host : Host) (d : List UInt8) : Prop := Returns (readAll 64 d) (Follows EntryBounds host)

/-- The same, and no branch target or label is right modulo `2 ^ 32` only. -/
def Alike (host : Host) (d : List UInt8) : Prop := Returns (readAll 64 d) (Follows EntryAlike host)

instance (host : Host) (d : List UInt8) : Decidable (Alike host d) := inferInstanceAs (Decidable (Returns _ _))

/-- What is loaded, before the first relocation. -/
structure ObjLow (d : List UInt8) (obj : Obj 32) (obj' : Obj 64) : Prop where
  sec : List.Forall₂ SectionLow obj.sec obj'.sec
  lay : LayoutLow obj.lay obj'.lay
  image : ImageLow obj.image obj'.image
  syms : List.Forall₂ (fun s t => SymbolLow s t ∧ NameRead d obj'.sec obj'.lay s t) obj.syms obj'.syms

/-- **Both runs load the same object**, whatever the condition on its entries. -/
theorem load_agree {P : EntryGuard} {host : Host} {d : List UInt8} (h : Follows P host d) :
    Agree (ObjLow d) (load (w := 32) host d) (load (w := 64) host d) := by
  have m32 : maxString 32 = 2 ^ 31 - 1 := rfl
  have m64 : maxString 64 = 2 ^ 63 - 1 := rfl
  have hd := h.file
  have r32 : readAll 32 d = .ok d := if_pos (by omega)
  have r64 : readAll 64 d = .ok d := if_pos (by omega)
  unfold load
  rw [r32, r64]
  refine (readHeader_agree hd).bind fun e e' _ he' he => ?_
  refine (readSections_agree hd he (h.headers _ he')).bind fun sec sec' _ hsec' hsec => ?_
  have hnarrow := h.layout _ he' _ hsec'
  have hsec1 : List.Forall₂ SectionLow sec sec' := hsec.imp fun _ _ h => h.1
  have hl := layout_low hsec1 hnarrow
  have hnd : (sec'.map (·.index)).Nodup := by
    rw [index_of_readSections hsec']
    exact List.nodup_range
  have hstored := storedEnd_low hsec1 hnarrow
  refine (dieIf_agree (Word.eq_ofNat ⟨hstored.1, hstored.2.trans (by decide)⟩ (n := 0) (by decide))).bind
    fun _ _ _ hdie _ => ?_
  have hcontent := dieIf_ok.mp hdie
  refine (blitAll_agree hsec hnarrow hnd (h.names _ he' _ hsec' hcontent)).bind fun m m' _ hm' hm => ?_
  have hsyms := h.symbols _ he' _ hsec' hcontent _ hm'
  refine (readSymbols_agree hd hsec1 hl hsyms).bind fun syms syms' _ _ hsyms => ?_
  exact agree_pure ⟨hsec1, hl, hm, hsyms⟩

/-- Both runs stop, or both write the same file. -/
def SameOutcome (host : Host) (d : List UInt8) : Prop :=
  (mkflt 32 host (BitVec.ofNat 32 defaultStack) d).toOption =
    (mkflt 64 host (BitVec.ofNat 64 defaultStack) d).toOption

/-- A file even the wide interpreter cannot hold stops both. -/
theorem sameOutcome_of_memory {host : Host} {d : List UInt8} {e : Err} (h : readAll 64 d = .error e) :
    SameOutcome host d := by
  have hlen : ¬ d.length ≤ maxString 64 := fun hle => by
    rw [readAll, if_pos hle] at h
    cases h
  have hpow : maxString 32 ≤ maxString 64 := by decide
  have hload : ∀ w, maxString w ≤ maxString 64 → ∃ e, load (w := w) host d = .error e := fun w hw =>
    ⟨.memory, by unfold load; rw [readAll, if_neg (by omega)]; rfl⟩
  obtain ⟨e32, h32⟩ := hload 32 hpow
  obtain ⟨e64, h64⟩ := hload 64 (le_refl _)
  apply agree_eq
  unfold mkflt
  refine (dieIf_agree (by decide)).bind fun _ _ _ _ _ => ?_
  rw [h32, h64]
  exact .error _ _

/-- Stage by stage: each one agrees under its own condition, with what the stages before it have made. -/
theorem sameOutcome_of_alike {host : Host} {d : List UInt8} (halike : Alike host d) : SameOutcome host d := by
  cases hread : readAll 64 d with
  | error e => exact sameOutcome_of_memory hread
  | ok b =>
    obtain ⟨rfl, -⟩ := readAll_ok hread
    have h := halike b hread
    apply agree_eq
    unfold mkflt
    refine (dieIf_agree (by decide)).bind fun _ _ _ _ _ => ?_
    refine (load_agree h).bind fun obj obj' _ hload hobj => ?_
    have hsyms : List.Forall₂ SymbolLow obj.syms obj'.syms := hobj.syms.imp fun _ _ h => h.1
    refine (relocLoop_agree h.file hobj.sec hobj.lay hsyms hobj.image (h.entries _ hload)).bind
      fun st st' _ hloop hst => ?_
    obtain ⟨hmax, hstart⟩ := h.output _ hload _ hloop
    refine (blob_agree hst.imageLow hobj.lay.imageLen hmax).bind fun body body' _ _ hbody => ?_
    have hentry := entryPoint_low (hobj.syms.imp fun _ _ h => ⟨h.1, h.2.start hstart⟩)
    have hhead : header obj.lay.imageLen (entryPoint obj.syms) (BitVec.ofNat 32 defaultStack) =
        header obj'.lay.imageLen (entryPoint obj'.syms) (BitVec.ofNat 64 defaultStack) := by
      rw [hobj.lay.imageLen.1, hentry, ← low_ofNat (w := 64) (by omega), header_low]
    dsimp only
    rw [hhead, hbody]
    refine (dieIf_agree Iff.rfl).bind fun _ _ _ _ _ => ?_
    exact (dieIf_agree Iff.rfl).bind fun _ _ _ _ _ => agree_pure rfl

/-- A branch that was patched reaches its target. -/
theorem applied_reach {host : Host} {syms : List (Symbol 64)} {st st' : LinkState 64} {r : Reloc 64}
    (h : Applied host syms st r st') (ht : r.rtype = R.branch ∨ r.rtype = R.jal) :
    ∃ s, symaddr host syms r.rsym = .ok s ∧ InReach (reach r.rtype) (s + r.addend - r.loc) := by
  cases h
  case branch hb s x hs hr hx =>
    rw [reach, if_pos hb]
    exact ⟨s, hs, inReach_of_checkRange (.inr rfl) (.inl rfl) hr⟩
  case jal hj s x hs hr hx =>
    rw [reach, if_neg (by rw [hj]; decide)]
    exact ⟨s, hs, inReach_of_checkRange (.inr rfl) (.inr rfl) hr⟩
  all_goals rcases ht with ht | ht <;> simp_all +decide

/-- **Step**: the keys of the wide run stay words. -/
theorem WordKeys.applied {host : Host} {syms : List (Symbol 64)} {st st' : LinkState 64} {r : Reloc 64}
    (h : WordKeys st) (hb : EntryBounds host syms st r) (ha : Applied host syms st r st') : WordKeys st' := by
  have hpatch : ∀ {off x : BitVec 64} (v : BitVec 64), rd32 st.image off = .ok x → Inside (wr32 st.image off v) :=
    fun v hx => h.image.wr32 (rd32_inside h.image hx) v
  cases ha with
  | nothing => exact h
  | rv32Pcrel ht s hs => exact ⟨h.image.wr32 (hb.writes (.inl ht) _ hs) _, h.sites⟩
  | set32 ht s hs => exact ⟨h.image.wr32 (hb.writes (.inr ht) _ hs) _, h.sites⟩
  | pcrelHi20 ht s x hs hx =>
    have hin := rd32_inside h.image hx
    refine ⟨hpatch _ hx, fun k hk => ?_⟩
    dsimp only
    rw [if_neg fun e => by rw [e] at hk; omega]
    exact h.sites k hk
  | call ht s x y hs hx hy =>
    have hfirst := hpatch (putU x (Mkflt.hi20 (s + r.addend - r.loc))) hx
    exact ⟨hfirst.wr32 (rd32_inside hfirst hy) _, h.sites⟩
  | pcrelLo12I ht site v x hs hv hx => exact ⟨hpatch _ hx, h.sites⟩
  | pcrelLo12S ht site v x hs hv hx => exact ⟨hpatch _ hx, h.sites⟩
  | hi20 ht s x hs hx => exact ⟨hpatch _ hx, h.sites⟩
  | lo12I ht s x hs hx => exact ⟨hpatch _ hx, h.sites⟩
  | lo12S ht s x hs hx => exact ⟨hpatch _ hx, h.sites⟩
  | branch ht s x hs hr hx => exact ⟨hpatch _ hx, h.sites⟩
  | jal ht s x hs hr hx => exact ⟨hpatch _ hx, h.sites⟩
  | add32 ht s x hs hx => exact ⟨hpatch _ hx, h.sites⟩
  | sub32 ht s x hs hx => exact ⟨hpatch _ hx, h.sites⟩

/-- What the wide run accepts is near: it found the label, and the branch in reach. -/
theorem near_of_applied {host : Host} {syms : List (Symbol 64)} {st st' : LinkState 64} {r : Reloc 64}
    (h : WordKeys st) (ha : Applied host syms st r st') : EntryNear host syms st r := by
  refine ⟨fun ht S hS _ => ?_, fun ht S hS => ?_⟩
  · obtain ⟨s, hs, hreach⟩ := applied_reach ha ht
    obtain rfl := Except.ok.inj (hs.symm.trans hS)
    exact hreach
  -- the label was found in the wide table, whose keys are words
  · obtain ⟨site, v, _, hs, hv, -⟩ := applied_pcrelLo12 (by decide) ha ht
    obtain rfl := Except.ok.inj (hs.symm.trans hS)
    by_contra hno
    rw [h.sites site (by unfold Finds at hno; omega)] at hv
    cases hv

/-- **An object the wide run accepts inside the bounds** is near at every entry. -/
theorem alike_of_accepted {host : Host} {d out : List UInt8} {stack : BitVec 64} (hbounded : Bounded host d)
    (hout : mkflt 64 host stack d = .ok out) : Alike host d := by
  intro b hread
  have h := hbounded b hread
  obtain rfl : b = d := (readAll_ok hread).1
  obtain ⟨obj, st, -, hload, hloop, -, -⟩ := mkflt_ok hout
  refine ⟨h.file, h.headers, h.layout, h.names, h.symbols, fun obj' hload' => ?_, h.output⟩
  obtain rfl := Except.ok.inj (hload.symm.trans hload')
  have hlow := load_agree h
  rw [hload] at hlow
  generalize load (w := 32) host _ = narrow at hlow
  cases hlow with
  | ok hobj =>
    -- the bounds of each entry keep the keys words, and that the entry was applied makes it near
    have hkeys : WordKeys ⟨obj.image, fun _ => none⟩ := ⟨hobj.image.inside, fun _ _ => rfl⟩
    have hnear := (h.entries obj hload).and_ok (I := WordKeys)
      (q := fun st q => Returns (readReloc b q) (EntryNear host obj.syms st)) (fun st q st' _ hI hp hstep => ?_)
      hloop hkeys
    · exact hnear.mono fun st q hq => ⟨hq.1.1, hq.1.2.1, fun r hr => ⟨hq.1.2.2 r hr, hq.2 r hr⟩⟩
    · obtain ⟨r, hr, happly⟩ := bind_ok.mp hstep
      have ha := applied_of_ok happly
      refine ⟨hI.applied (hp.2.2 r hr) ha, fun r' hr' => ?_⟩
      obtain rfl := Except.ok.inj (hr.symm.trans hr')
      exact near_of_applied hI ha

/-- `jal x0, .`: the branch whose target is itself. -/
def jumpProgram : List Elf.Sec :=
  Elf.program [0x6f, 0, 0, 0] [Elf.rela 0 1 R.jal 0] [Elf.sym 0 0, Elf.sym 0 1] []

/-- A branch that is in reach modulo `2 ^ 32` only parts nothing behind an entry that both runs refuse. -/
example :
    let secs := Elf.program [0x63, 0, 0, 0] [Elf.rela 0 1 R.align 0, Elf.rela 0 1 R.branch 0]
      [Elf.sym 0 0, Elf.sym 0xfffffff8 0xfff1] []
    Alike (.ofSections secs) (Elf.object secs) := by
  decide +kernel

/-- `beq x0, x0, f` with `f` the absolute symbol `0xfffffff8`: eight bytes back at 32 bits, four
    gigabytes ahead at 64. -/
def absProgram : List Elf.Sec :=
  Elf.program [0x63, 0, 0, 0] [Elf.rela 0 1 R.branch 0] [Elf.sym 0 0, Elf.sym 0xfffffff8 0xfff1] []

end P4Linux.Mkflt
