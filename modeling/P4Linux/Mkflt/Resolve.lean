import P4Linux.Mkflt.PcRel

/-!
# Every symbol that is used has an address

`symaddr` refuses a symbol without an address, and the symbol loop leaves only SHN_UNDEF without one.

* `Resolved` -- the symbol of an entry is absolute or lies in the image;
* `Stray` -- a symbol whose section is not in the image: SHN_COMMON, a section without SHF_ALLOC, an
  empty one, an index past the table. It keeps its plain `st_value` ("non-allocatable: debug info
  etc."), and a relocation of loaded code takes that for an image offset;
* `resolves_iff` -- **that is the only way an accepted object is linked against a symbol without a place
  in the image**;
* `resolves_not_common` -- a call of a common symbol.
-/

namespace P4Linux.Mkflt

open Lua

variable {w : Nat}

/-! ## 1. Resolved and stray -/

/-- The types whose branch of the loop calls `symaddr`. -/
def readsSymbol (t : Nat) : Bool :=
  [R.rv32Pcrel, R.pcrelHi20, R.pcrelLo12I, R.pcrelLo12S, R.hi20, R.lo12I, R.lo12S, R.branch, R.jal,
    R.call, R.callPlt].contains t || isDataArith t

/-- The section index `shndx` is that of a section in the image: SHF_ALLOC and not empty. -/
def InImage (sec : List (Section w)) (shndx : BitVec w) : Prop :=
  ∃ s ∈ sec, s.index = shndx.toNat ∧ s.loads = true

instance (sec : List (Section w)) (shndx : BitVec w) : Decidable (InImage sec shndx) :=
  inferInstanceAs (Decidable (∃ s ∈ sec, _))

/-- The symbol an entry reads is absolute, or defined in a section of the image and used at
    `base[shndx] + st_value`. -/
def Resolved (host : Host) (d : List UInt8) (obj : Obj w) (r : Reloc w) : Prop :=
  ∃ shndx value, symbolEntry d obj.sec r.rsym = .ok (shndx, value) ∧
    (shndx = BitVec.ofNat w shnAbs ∨
      InImage obj.sec shndx ∧ ∃ b, obj.lay.at? shndx = some b ∧
        symaddr host obj.syms r.rsym = .ok (b + value))

/-- Symbol `k` names neither SHN_ABS, nor SHN_UNDEF, nor a section of the image. -/
def Stray (d : List UInt8) (obj : Obj w) (k : Nat) : Prop :=
  ∃ shndx value, symbolEntry d obj.sec k = .ok (shndx, value) ∧ shndx ≠ BitVec.ofNat w shnAbs ∧
    shndx ≠ BitVec.ofNat w shnUndef ∧ ¬ InImage obj.sec shndx

instance (d : List UInt8) (obj : Obj w) (k : Nat) : Decidable (Stray d obj k) :=
  match h : symbolEntry d obj.sec k with
  | .error _ => isFalse fun ⟨_, _, e, _⟩ => by rw [h] at e; cases e
  | .ok (shndx, value) =>
    decidable_of_iff (shndx ≠ BitVec.ofNat w shnAbs ∧ shndx ≠ BitVec.ofNat w shnUndef ∧
        ¬ InImage obj.sec shndx)
      ⟨fun hp => ⟨shndx, value, h, hp⟩, fun ⟨_, _, e, hp⟩ => by rw [h] at e; cases e; exact hp⟩

/-! ## 2. What `symaddr` answers -/

section Step

variable {host : Host} {syms : List (Symbol w)} {st st' : LinkState w} {r : Reloc w}

/-- An entry that was applied, and is of a type that reads a symbol, was given an address. -/
theorem applied_symaddr (h : Applied host syms st r st') (ht : readsSymbol r.rtype = true) :
    ∃ a, symaddr host syms r.rsym = .ok a := by
  cases h with
  | nothing h0 => rcases h0 with h0 | h0 <;> rw [h0] at ht <;> cases ht
  | rv32Pcrel _ s hs => exact ⟨s, hs⟩
  | pcrelHi20 _ s _ hs => exact ⟨s, hs⟩
  | pcrelLo12I _ site _ _ hs => exact ⟨site, hs⟩
  | pcrelLo12S _ site _ _ hs => exact ⟨site, hs⟩
  | hi20 _ s _ hs => exact ⟨s, hs⟩
  | lo12I _ s _ hs => exact ⟨s, hs⟩
  | lo12S _ s _ hs => exact ⟨s, hs⟩
  | branch _ s _ hs => exact ⟨s, hs⟩
  | jal _ s _ hs => exact ⟨s, hs⟩
  | call _ s _ _ hs => exact ⟨s, hs⟩
  | add32 _ s _ hs => exact ⟨s, hs⟩
  | sub32 _ s _ hs => exact ⟨s, hs⟩
  | set32 _ s hs => exact ⟨s, hs⟩

end Step

theorem at?_isSome {host : Host} {d : List UInt8} {obj : Obj w} (hload : load host d = .ok obj)
    {shndx : BitVec w} : (obj.lay.at? shndx).isSome = true ↔ InImage obj.sec shndx := by
  obtain ⟨-, e, -, -, hlay, -, -⟩ := load_ok hload
  rw [hlay]
  exact base_layout_isSome

/-- **An address that `symaddr` gives** is the right one, or a stray symbol's `st_value`. -/
theorem resolved_or_stray {host : Host} {d : List UInt8} {obj : Obj w}
    (hload : load host d = .ok obj) {r : Reloc w} {a : BitVec w}
    (h : symaddr host obj.syms r.rsym = .ok a) : Resolved host d obj r ∨ Stray d obj r.rsym := by
  obtain ⟨-, e, -, -, -, -, hsyms⟩ := load_ok hload
  obtain ⟨s, hs, ha⟩ := symaddr_ok h
  obtain ⟨value, hentry, haddr⟩ := symbol_of_readSymbols hsyms hs
  rw [ha] at haddr
  by_cases habs : s.shndx = BitVec.ofNat w shnAbs
  · exact .inl ⟨s.shndx, value, hentry, .inl habs⟩
  by_cases hundef : s.shndx = BitVec.ofNat w shnUndef
  · rw [symbolAddr, if_neg habs, if_pos hundef] at haddr
    cases haddr
  rw [symbolAddr, if_neg habs, if_neg hundef] at haddr
  cases hb : obj.lay.at? s.shndx with
  | some b =>
    have hin : InImage obj.sec s.shndx := (at?_isSome hload).mp (by rw [hb]; rfl)
    rw [hb] at haddr
    rw [Option.some.inj haddr] at h
    exact .inl ⟨s.shndx, value, hentry, .inr ⟨hin, b, hb, h⟩⟩
  | none =>
    have hout : ¬ InImage obj.sec s.shndx := fun hin => by
      have := (at?_isSome hload).mpr hin
      rw [hb] at this
      cases this
    exact .inr ⟨s.shndx, value, hentry, habs, hundef, hout⟩

theorem not_stray_of_resolved {host : Host} {d : List UInt8} {obj : Obj w} {r : Reloc w}
    (h : Resolved host d obj r) : ¬ Stray d obj r.rsym := by
  rintro ⟨shndx, value, hentry, habs, -, hout⟩
  obtain ⟨shndx', value', hentry', h⟩ := h
  rw [hentry] at hentry'
  cases hentry'
  rcases h with h | ⟨hin, -⟩
  · exact habs h
  · exact hout hin

/-! ## 3. Every entry of an accepted object -/

/-- **When every symbol an accepted object uses is resolved**: exactly when none of the entries
    that read a symbol names a stray one. -/
theorem resolves_iff {host : Host} {stack : BitVec w} {d out : List UInt8} {obj : Obj w}
    (h : mkflt w host stack d = .ok out) (hload : load host d = .ok obj) :
    (∀ r ∈ relocs d obj, readsSymbol r.rtype = true → Resolved host d obj r) ↔
      ∀ r ∈ relocs d obj, readsSymbol r.rtype = true → ¬ Stray d obj r.rsym := by
  obtain ⟨obj', st, -, hload', hloop, -, -⟩ := mkflt_ok h
  rw [hload] at hload'
  cases hload'
  constructor
  · exact fun hall r hr ht => not_stray_of_resolved (hall r hr ht)
  · intro hall r hr ht
    obtain ⟨_, _, hap⟩ := applied_of_mem (relocLoop_apply hloop) hr
    obtain ⟨a, ha⟩ := applied_symaddr hap ht
    exact (resolved_or_stray hload ha).resolve_right (hall r hr ht)

theorem resolves_lla : ∃ (obj : Obj 32) (out : List UInt8),
    mkflt 32 (.ofSections llaProgram) 8192 (Elf.object llaProgram) = .ok out ∧
    load (.ofSections llaProgram) (Elf.object llaProgram) = .ok obj ∧
    ∀ r ∈ relocs (Elf.object llaProgram) obj, readsSymbol r.rtype = true →
      Resolved (.ofSections llaProgram) (Elf.object llaProgram) obj r := by
  obtain ⟨obj, out, hout, hobj, hp⟩ := exists_linked (w := 32) (.ofSections llaProgram) 8192
    (Elf.object llaProgram) (p := fun _ obj => decide (∀ r ∈ relocs (Elf.object llaProgram) obj, readsSymbol r.rtype = true →
      ¬ Stray (Elf.object llaProgram) obj r.rsym)) (by decide +kernel)
  exact ⟨obj, out, hout, hobj, (resolves_iff hout hobj).mpr (of_decide_eq_true hp)⟩

/-- `call f` with `f` a common symbol (`.comm f, 8, 4`: index 0xfff2, the value is its alignment). -/
def commonProgram : List Elf.Sec :=
  Elf.program [0x97, 0, 0, 0, 0xe7, 0x80, 0, 0] [Elf.rela 0 1 R.call 0]
    [Elf.sym 0 0, Elf.sym 4 0xfff2] []

/-- The call is linked to image offset 4, the middle of itself. -/
theorem resolves_not_common : ∃ (obj : Obj 32) (out : List UInt8),
    mkflt 32 (.ofSections commonProgram) 8192 (Elf.object commonProgram) = .ok out ∧
    load (.ofSections commonProgram) (Elf.object commonProgram) = .ok obj ∧
    ¬ ∀ r ∈ relocs (Elf.object commonProgram) obj, readsSymbol r.rtype = true →
      Resolved (.ofSections commonProgram) (Elf.object commonProgram) obj r := by
  obtain ⟨obj, out, hout, hobj, hp⟩ := exists_linked (w := 32) (.ofSections commonProgram) 8192
    (Elf.object commonProgram) (p := fun _ obj => decide (∃ c ∈ relocs (Elf.object commonProgram) obj,
      readsSymbol c.rtype = true ∧ Stray (Elf.object commonProgram) obj c.rsym)) (by decide +kernel)
  obtain ⟨c, hc, ht, hstray⟩ := of_decide_eq_true hp
  exact ⟨obj, out, hout, hobj, fun hall => not_stray_of_resolved (hall c hc ht) hstray⟩

end P4Linux.Mkflt
