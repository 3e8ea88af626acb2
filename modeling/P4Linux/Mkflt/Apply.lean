import Mathlib.Data.List.Pairwise
import P4Linux.Mkflt.Run

/-!
# One relocation entry, and the loop over all of them

`applyReloc` is a chain of `if`s, each branch with guards of its own. It is taken apart once, and what
the loop does is read off the result.

* `symbolEntry`, `Defined` -- a symbol straight out of the symbol table, so that statements can speak of
  `st_shndx` and `st_value` and not of the table the script builds from them;
* `Applied`, `applied_of_ok` -- everything an entry can do when it does not abort, guards included;
* `applied_frame`, `applied_hi20At` -- the bytes an entry can change, and how `hi20_at` grows;
* `loop_frame`, `loop_hi20At` -- the same of a whole loop, by induction on the entries;
* `loop_entry` -- where no two fields overlap, the loop leaves in a field what its own entry made of
  the bytes before the loop.
-/

namespace P4Linux.Mkflt

open Lua

variable {w : Nat}

/-! ## 1. Symbols -/

/-- `st_shndx` and `st_value` of symbol `k`. -/
def symbolEntry (d : List UInt8) (sec : List (Section w)) (k : Nat) :
    Except Err (BitVec w × BitVec w) :=
  match findSymtab sec with
  | none => .error .nilValue
  | some (symtab, _) => do
    let o := symtab.offset + BitVec.ofNat w k * 16
    let shndx ← u16 d (o + 14)
    let value ← u32 d (o + 4)
    pure (shndx, value)

theorem symbol_of_readSymbols {host : Host} {d : List UInt8} {sec : List (Section w)} {l : Layout w}
    {syms : List (Symbol w)} (h : readSymbols host d sec l = .ok syms) {k : Nat} {s : Symbol w}
    (hk : syms[k]? = some s) :
    ∃ value, symbolEntry d sec k = .ok (s.shndx, value) ∧ s.addr = symbolAddr l s.shndx value := by
  unfold readSymbols at h
  split at h
  · cases h
  · rename_i symtab strtab hfind
    obtain ⟨n, hn, hread⟩ := getElem?_of_mapM_ok h hk
    obtain rfl : k = n := by
      rw [List.getElem?_eq_some_iff] at hn
      obtain ⟨hlt, e⟩ := hn
      rwa [List.getElem_range] at e
    simp only [readSymbol, bind_ok, pure_ok] at hread
    obtain ⟨shndx, hshndx, value, hvalue, _, -, _, -, rfl⟩ := hread
    refine ⟨value, ?_, rfl⟩
    simp only [symbolEntry, hfind, hshndx, hvalue, bind_ok, pure_ok]
    exact ⟨_, rfl, _, rfl, rfl⟩

theorem symaddr_ok {host : Host} {syms : List (Symbol w)} {k : Nat} {a : BitVec w}
    (h : symaddr host syms k = .ok a) : ∃ s, syms[k]? = some s ∧ s.addr = some a := by
  unfold symaddr at h
  split at h
  · cases h
  · rename_i s hs
    split at h
    · rename_i b hb
      rw [Except.ok.inj h] at hb
      exact ⟨s, hs, hb⟩
    · cases h

/-- Symbol `k` is defined in a placed section, and `S` is where: `base[st_shndx] + st_value`. -/
def Defined (d : List UInt8) (obj : Obj w) (k : Nat) (S : BitVec w) : Prop :=
  ∃ shndx value b, symbolEntry d obj.sec k = .ok (shndx, value) ∧ shndx ≠ BitVec.ofNat w shnAbs ∧
    shndx ≠ BitVec.ofNat w shnUndef ∧ obj.lay.at? shndx = some b ∧ S = b + value

/-- **The script's address of a defined symbol is its image offset.** -/
theorem symaddr_defined {host : Host} {d : List UInt8} {obj : Obj w} (hload : load host d = .ok obj)
    {k : Nat} {S a : BitVec w} (hS : Defined d obj k S) (h : symaddr host obj.syms k = .ok a) :
    a = S := by
  obtain ⟨-, e, -, -, -, -, hsyms⟩ := load_ok hload
  obtain ⟨shndx, value, b, hentry, habs, hundef, hb, rfl⟩ := hS
  obtain ⟨s, hs, ha⟩ := symaddr_ok h
  obtain ⟨value', hentry', haddr⟩ := symbol_of_readSymbols hsyms hs
  rw [hentry] at hentry'
  cases hentry'
  rw [haddr, symbolAddr, if_neg habs, if_neg hundef, hb] at ha
  exact (Option.some.inj ha).symm

/-! ## 2. One entry -/

/-- The bytes of the field an entry patches. -/
def Reloc.width (r : Reloc w) : Nat :=
  if r.rtype = R.none ∨ r.rtype = R.relax then 0
  else if r.rtype = R.call ∨ r.rtype = R.callPlt then 8
  else 4

/-- Every other type patches one word. -/
theorem Reloc.width_eq_four {r : Reloc w} {t : Nat} (ht : r.rtype = t)
    (h : t ∉ [R.none, R.relax, R.call, R.callPlt]) : r.width = 4 := by
  simp only [List.mem_cons, List.not_mem_nil, or_false, not_or] at h
  subst ht
  rw [Reloc.width, if_neg (not_or.mpr ⟨h.1, h.2.1⟩), if_neg (not_or.mpr h.2.2)]

theorem Reloc.width_eq_eight {r : Reloc w} (ht : r.rtype = R.call ∨ r.rtype = R.callPlt) :
    r.width = 8 := by
  rcases ht with ht | ht <;> simp [Reloc.width, ht, R.none, R.relax, R.call, R.callPlt]

section Step

variable {host : Host} {syms : List (Symbol w)} {st st' : LinkState w} {r : Reloc w}

/-- **Everything an entry can do** to the state of the loop, when the script goes on. -/
inductive Applied (host : Host) (syms : List (Symbol w)) (st : LinkState w) (r : Reloc w) :
    LinkState w → Prop where
  | nothing (ht : r.rtype = R.none ∨ r.rtype = R.relax) : Applied host syms st r st
  | rv32Pcrel (ht : r.rtype = R.rv32Pcrel) (s : BitVec w) (hs : symaddr host syms r.rsym = .ok s) :
      Applied host syms st r ⟨wr32 st.image r.loc (s + r.addend - r.loc), st.hi20At⟩
  | pcrelHi20 (ht : r.rtype = R.pcrelHi20) (s x : BitVec w) (hs : symaddr host syms r.rsym = .ok s)
      (hx : rd32 st.image r.loc = .ok x) :
      Applied host syms st r ⟨wr32 st.image r.loc (putU x (hi20 (s + r.addend - r.loc))),
        fun i => if i = r.loc then some (s + r.addend - r.loc) else st.hi20At i⟩
  | pcrelLo12I (ht : r.rtype = R.pcrelLo12I) (site v x : BitVec w)
      (hs : symaddr host syms r.rsym = .ok site) (hv : st.hi20At site = some v)
      (hx : rd32 st.image r.loc = .ok x) :
      Applied host syms st r ⟨wr32 st.image r.loc (putI x (lo12 v)), st.hi20At⟩
  | pcrelLo12S (ht : r.rtype = R.pcrelLo12S) (site v x : BitVec w)
      (hs : symaddr host syms r.rsym = .ok site) (hv : st.hi20At site = some v)
      (hx : rd32 st.image r.loc = .ok x) :
      Applied host syms st r ⟨wr32 st.image r.loc (putS x (lo12 v)), st.hi20At⟩
  | hi20 (ht : r.rtype = R.hi20) (s x : BitVec w) (hs : symaddr host syms r.rsym = .ok s)
      (hx : rd32 st.image r.loc = .ok x) :
      Applied host syms st r ⟨wr32 st.image r.loc (putU x (hi20 (s + r.addend))), st.hi20At⟩
  | lo12I (ht : r.rtype = R.lo12I) (s x : BitVec w) (hs : symaddr host syms r.rsym = .ok s)
      (hx : rd32 st.image r.loc = .ok x) :
      Applied host syms st r ⟨wr32 st.image r.loc (putI x (lo12 (s + r.addend))), st.hi20At⟩
  | lo12S (ht : r.rtype = R.lo12S) (s x : BitVec w) (hs : symaddr host syms r.rsym = .ok s)
      (hx : rd32 st.image r.loc = .ok x) :
      Applied host syms st r ⟨wr32 st.image r.loc (putS x (lo12 (s + r.addend))), st.hi20At⟩
  | branch (ht : r.rtype = R.branch) (s x : BitVec w) (hs : symaddr host syms r.rsym = .ok s)
      (hr : checkRange (s + r.addend - r.loc) 13 "branch" r.loc = .ok ())
      (hx : rd32 st.image r.loc = .ok x) :
      Applied host syms st r ⟨wr32 st.image r.loc (putB x (s + r.addend - r.loc)), st.hi20At⟩
  | jal (ht : r.rtype = R.jal) (s x : BitVec w) (hs : symaddr host syms r.rsym = .ok s)
      (hr : checkRange (s + r.addend - r.loc) 21 "jal" r.loc = .ok ())
      (hx : rd32 st.image r.loc = .ok x) :
      Applied host syms st r ⟨wr32 st.image r.loc (putJ x (s + r.addend - r.loc)), st.hi20At⟩
  | call (ht : r.rtype = R.call ∨ r.rtype = R.callPlt) (s x y : BitVec w)
      (hs : symaddr host syms r.rsym = .ok s) (hx : rd32 st.image r.loc = .ok x)
      (hy : rd32 (wr32 st.image r.loc (putU x (Mkflt.hi20 (s + r.addend - r.loc)))) (r.loc + 4) =
        .ok y) :
      Applied host syms st r
        ⟨wr32 (wr32 st.image r.loc (putU x (Mkflt.hi20 (s + r.addend - r.loc)))) (r.loc + 4)
          (putI y (lo12 (s + r.addend - r.loc))), st.hi20At⟩
  | add32 (ht : r.rtype = R.add32) (s x : BitVec w) (hs : symaddr host syms r.rsym = .ok s)
      (hx : rd32 st.image r.loc = .ok x) :
      Applied host syms st r ⟨wr32 st.image r.loc (x + (s + r.addend)), st.hi20At⟩
  | sub32 (ht : r.rtype = R.sub32) (s x : BitVec w) (hs : symaddr host syms r.rsym = .ok s)
      (hx : rd32 st.image r.loc = .ok x) :
      Applied host syms st r ⟨wr32 st.image r.loc (x - (s + r.addend)), st.hi20At⟩
  | set32 (ht : r.rtype = R.set32) (s : BitVec w) (hs : symaddr host syms r.rsym = .ok s) :
      Applied host syms st r ⟨wr32 st.image r.loc (s + r.addend), st.hi20At⟩

theorem modify_ok {off : BitVec w} {f : BitVec w → BitVec w} (h : modify st off f = .ok st') :
    ∃ x, rd32 st.image off = .ok x ∧ st' = ⟨wr32 st.image off (f x), st.hi20At⟩ := by
  simp only [modify, bind_ok, pure_ok] at h
  obtain ⟨x, hx, rfl⟩ := h
  exact ⟨x, hx, rfl⟩

/-- **The inversion of `applyReloc`.** -/
theorem applied_of_ok (h : applyReloc host syms st r = .ok st') : Applied host syms st r st' := by
  unfold applyReloc at h
  by_cases h0 : r.rtype = R.none ∨ r.rtype = R.relax
  · rw [if_pos h0] at h
    cases h
    exact .nothing h0
  rw [if_neg h0] at h
  by_cases h1 : r.rtype = R.rv32
  · rw [if_pos h1] at h
    cases h
  rw [if_neg h1] at h
  by_cases h2 : r.rtype = R.rv32Pcrel
  · rw [if_pos h2] at h
    obtain ⟨s, hs, h⟩ := bind_ok.mp h
    cases h
    exact .rv32Pcrel h2 s hs
  rw [if_neg h2] at h
  by_cases h3 : r.rtype = R.gotHi20
  · rw [if_pos h3] at h
    cases h
  rw [if_neg h3] at h
  by_cases h4 : r.rtype = R.pcrelHi20
  · rw [if_pos h4, bind_ok] at h
    obtain ⟨s, hs, h⟩ := h
    obtain ⟨x, hx, rfl⟩ := modify_ok h
    exact .pcrelHi20 h4 s x hs hx
  rw [if_neg h4] at h
  by_cases h5 : r.rtype = R.pcrelLo12I ∨ r.rtype = R.pcrelLo12S
  · rw [if_pos h5] at h
    obtain ⟨site, hs, h⟩ := bind_ok.mp h
    cases hv : st.hi20At site with
    | none => rw [hv] at h; cases h
    | some v =>
      rw [hv] at h
      by_cases hi : r.rtype = R.pcrelLo12I
      · obtain ⟨x, hx, rfl⟩ := modify_ok ((if_pos hi).symm.trans h)
        exact .pcrelLo12I hi site v x hs hv hx
      · obtain ⟨x, hx, rfl⟩ := modify_ok ((if_neg hi).symm.trans h)
        exact .pcrelLo12S (h5.resolve_left hi) site v x hs hv hx
  rw [if_neg h5] at h
  by_cases h6 : r.rtype = R.hi20
  · rw [if_pos h6, bind_ok] at h
    obtain ⟨s, hs, h⟩ := h
    obtain ⟨x, hx, rfl⟩ := modify_ok h
    exact .hi20 h6 s x hs hx
  rw [if_neg h6] at h
  by_cases h7 : r.rtype = R.lo12I
  · rw [if_pos h7, bind_ok] at h
    obtain ⟨s, hs, h⟩ := h
    obtain ⟨x, hx, rfl⟩ := modify_ok h
    exact .lo12I h7 s x hs hx
  rw [if_neg h7] at h
  by_cases h8 : r.rtype = R.lo12S
  · rw [if_pos h8, bind_ok] at h
    obtain ⟨s, hs, h⟩ := h
    obtain ⟨x, hx, rfl⟩ := modify_ok h
    exact .lo12S h8 s x hs hx
  rw [if_neg h8] at h
  by_cases h9 : r.rtype = R.branch
  · rw [if_pos h9] at h
    obtain ⟨s, hs, h⟩ := bind_ok.mp h
    obtain ⟨_, hr, h⟩ := bind_ok.mp h
    obtain ⟨x, hx, rfl⟩ := modify_ok h
    exact .branch h9 s x hs hr hx
  rw [if_neg h9] at h
  by_cases h10 : r.rtype = R.jal
  · rw [if_pos h10] at h
    obtain ⟨s, hs, h⟩ := bind_ok.mp h
    obtain ⟨_, hr, h⟩ := bind_ok.mp h
    obtain ⟨x, hx, rfl⟩ := modify_ok h
    exact .jal h10 s x hs hr hx
  rw [if_neg h10] at h
  by_cases h11 : r.rtype = R.call ∨ r.rtype = R.callPlt
  · rw [if_pos h11] at h
    obtain ⟨s, hs, h⟩ := bind_ok.mp h
    obtain ⟨st1, h1, h⟩ := bind_ok.mp h
    obtain ⟨x, hx, rfl⟩ := modify_ok h1
    obtain ⟨y, hy, rfl⟩ := modify_ok h
    exact .call h11 s x y hs hx hy
  rw [if_neg h11] at h
  by_cases h12 : isDataArith r.rtype = true
  · rw [if_pos h12] at h
    obtain ⟨s, hs, h⟩ := bind_ok.mp h
    by_cases ha : r.rtype = R.add32
    · obtain ⟨x, hx, rfl⟩ := modify_ok ((if_pos ha).symm.trans h)
      exact .add32 ha s x hs hx
    replace h := (if_neg ha).symm.trans h
    by_cases hb : r.rtype = R.sub32
    · obtain ⟨x, hx, rfl⟩ := modify_ok ((if_pos hb).symm.trans h)
      exact .sub32 hb s x hs hx
    replace h := (if_neg hb).symm.trans h
    by_cases hc : r.rtype = R.set32
    · cases (if_pos hc).symm.trans h
      exact .set32 hc s hs
    · cases (if_neg hc).symm.trans h
  rw [if_neg h12] at h
  by_cases h13 : r.rtype = R.align
  · rw [if_pos h13] at h
    cases h
  · rw [if_neg h13] at h
    cases h

/-- Every byte an entry changes lies in its field. -/
theorem applied_frame (h : Applied host syms st r st') {k : BitVec w} (hk : ¬ Field r.loc r.width k) :
    st'.image k = st.image k := by
  have h4 : ∀ {t : Nat} {v : BitVec w}, r.rtype = t → t ∉ [R.none, R.relax, R.call, R.callPlt] →
      wr32 st.image r.loc v k = st.image k := fun ht hn =>
    wr32_other (Reloc.width_eq_four ht hn ▸ hk)
  cases h with
  | nothing => rfl
  | call ht s x y hs hx hy =>
    rw [Reloc.width_eq_eight ht] at hk
    have hk1 : ¬ Field r.loc 4 k := fun hf => hk (hf.mono (by omega))
    have hk2 : ¬ Field (r.loc + 4) 4 k := by
      rintro ⟨i, hi, rfl⟩
      refine hk ⟨i + 4, by omega, ?_⟩
      rw [BitVec.add_assoc, show i + 4 + 1 = 4 + (i + 1) by omega, BitVec.ofNat_add 4]
      rfl
    show wr32 _ _ _ k = _
    rw [wr32_other hk2, wr32_other hk1]
  | rv32Pcrel ht => exact h4 ht (by decide)
  | pcrelHi20 ht => exact h4 ht (by decide)
  | pcrelLo12I ht => exact h4 ht (by decide)
  | pcrelLo12S ht => exact h4 ht (by decide)
  | hi20 ht => exact h4 ht (by decide)
  | lo12I ht => exact h4 ht (by decide)
  | lo12S ht => exact h4 ht (by decide)
  | branch ht => exact h4 ht (by decide)
  | jal ht => exact h4 ht (by decide)
  | add32 ht => exact h4 ht (by decide)
  | sub32 ht => exact h4 ht (by decide)
  | set32 ht => exact h4 ht (by decide)

/-- `q` is a HI20 entry that put `v` into the side table at `site`. -/
def HiAt (host : Host) (syms : List (Symbol w)) (q : Reloc w) (site v : BitVec w) : Prop :=
  q.rtype = R.pcrelHi20 ∧ q.loc = site ∧
    ∃ s, symaddr host syms q.rsym = .ok s ∧ v = s + q.addend - q.loc

/-- The side table grows by the entry's own distance at the entry's own site, or not at all. -/
theorem applied_hi20At (h : Applied host syms st r st') {site v : BitVec w}
    (hv : st'.hi20At site = some v) : st.hi20At site = some v ∨ HiAt host syms r site v := by
  cases h with
  | pcrelHi20 ht s x hs hx =>
    replace hv : (if site = r.loc then some (s + r.addend - r.loc) else st.hi20At site) = some v := hv
    by_cases e : site = r.loc
    · rw [if_pos e] at hv
      exact .inr ⟨ht, e.symm, s, hs, (Option.some.inj hv).symm⟩
    · rw [if_neg e] at hv
      exact .inl hv
  | _ => exact .inl hv

end Step

/-! ## 3. The loop -/

/-- The entries of an object, in the order the loop applies them. -/
def relocs (d : List UInt8) (obj : Obj w) : List (Reloc w) :=
  (relocSites obj.sec obj.lay).filterMap fun site => (readReloc d site).toOption

/-- **A loop that came through is the fold of `applyReloc` over the entries.** -/
theorem relocLoop_apply {host : Host} {d : List UInt8} {syms : List (Symbol w)}
    {sites : List (Section w × BitVec w × Nat)} {m : Image w} {st : LinkState w}
    (h : relocLoop host d syms sites m = .ok st) :
    (sites.filterMap fun site => (readReloc d site).toOption).foldlM (applyReloc host syms)
      ⟨m, fun _ => none⟩ = .ok st := by
  unfold relocLoop at h
  generalize (⟨m, fun _ => none⟩ : LinkState w) = st0 at h ⊢
  induction sites generalizing st0 with
  | nil => exact h
  | cons site sites ih =>
    obtain ⟨st1, hstep, h⟩ := foldlM_cons_ok.mp h
    obtain ⟨r, hr, hap⟩ := bind_ok.mp hstep
    have e : (readReloc d site).toOption = some r := by rw [hr]; rfl
    rw [List.filterMap_cons, e]
    exact foldlM_cons_ok.mpr ⟨st1, hap, ih st1 h⟩

/-- An entry's field sits at the base of its target section plus `r_off`. -/
theorem loc_of_mem_relocs {d : List UInt8} {obj : Obj w} {r : Reloc w} (h : r ∈ relocs d obj) :
    ∃ b, obj.lay.base r.target = some b ∧ r.loc = b + r.roff := by
  obtain ⟨⟨s, b, k⟩, hmem, hr⟩ := List.mem_filterMap.mp h
  have hr := ok_of_toOption hr
  simp only [readReloc, bind_ok, pure_ok] at hr
  obtain ⟨_, -, _, -, _, -, rfl⟩ := hr
  obtain ⟨t, -, hin⟩ := List.mem_flatMap.mp hmem
  split at hin
  · split at hin
    · rename_i b' hb
      obtain ⟨j, -, e⟩ := List.mem_map.mp hin
      cases e
      exact ⟨b, hb, rfl⟩
    · cases hin
  · cases hin

/-- Two fields without a common byte. -/
def Apart (a b : Reloc w) : Prop :=
  ∀ i < a.width, ∀ j < b.width, a.loc + BitVec.ofNat w (i + 1) ≠ b.loc + BitVec.ofNat w (j + 1)

instance : DecidableRel (Apart (w := w)) := fun _ _ => inferInstanceAs (Decidable (∀ _ < _, _))

instance : Std.Symm (Apart (w := w)) := ⟨fun _ _ h i hi j hj e => h j hj i hi e.symm⟩

/-- No two of the entries patch a common byte. -/
def NoOverlap (rels : List (Reloc w)) : Prop := rels.Pairwise Apart

instance (rels : List (Reloc w)) : Decidable (NoOverlap rels) :=
  inferInstanceAs (Decidable (rels.Pairwise Apart))

theorem Apart.field {a b : Reloc w} (h : Apart a b) {k : BitVec w} (ha : Field a.loc a.width k) :
    ¬ Field b.loc b.width k := by
  rintro ⟨j, hj, e⟩
  obtain ⟨i, hi, rfl⟩ := ha
  exact h i hi j hj e

section Loop

variable {host : Host} {syms : List (Symbol w)} {st st' : LinkState w} {rels : List (Reloc w)}

theorem loop_frame (h : rels.foldlM (applyReloc host syms) st = .ok st') {k : BitVec w}
    (hk : ∀ r ∈ rels, ¬ Field r.loc r.width k) : st'.image k = st.image k :=
  foldlM_keeps (P := fun t => t.image k = st.image k)
    (fun r hr _ _ ht e => (applied_frame (applied_of_ok ht) (hk r hr)).trans e) h rfl

theorem loop_hi20At (h : rels.foldlM (applyReloc host syms) st = .ok st')
    (h0 : ∀ site, st.hi20At site = none) {site v : BitVec w} (hv : st'.hi20At site = some v) :
    ∃ q ∈ rels, HiAt host syms q site v := by
  revert hv
  refine foldlM_keeps (P := fun t => t.hi20At site = some v → ∃ q ∈ rels, HiAt host syms q site v)
    (fun r hr _ _ ht ih hv => ?_) h (fun hv => by rw [h0] at hv; cases hv)
  rcases applied_hi20At (applied_of_ok ht) hv with hv | hq
  · exact ih hv
  · exact ⟨r, hr, hq⟩

/-- Every entry of a loop that came through was applied. -/
theorem applied_of_mem (h : rels.foldlM (applyReloc host syms) st = .ok st') {r : Reloc w}
    (hr : r ∈ rels) : ∃ st1 st2, Applied host syms st1 r st2 := by
  obtain ⟨pre, post, rfl⟩ := List.append_of_mem hr
  obtain ⟨st1, -, h⟩ := foldlM_append_ok.mp h
  obtain ⟨st2, hstep, -⟩ := foldlM_cons_ok.mp h
  exact ⟨st1, st2, applied_of_ok hstep⟩

/-- **What becomes of one entry's field in a whole loop.** The entry finds it as it was before the
    loop, and the loop leaves it as the entry did; the side table the entry sees was filled by
    entries of the loop. -/
theorem loop_entry (h : rels.foldlM (applyReloc host syms) st = .ok st') (hno : NoOverlap rels)
    (h0 : ∀ site, st.hi20At site = none) {r : Reloc w} (hr : r ∈ rels) :
    ∃ st1 st2, Applied host syms st1 r st2 ∧
      (∀ k, Field r.loc r.width k → st1.image k = st.image k) ∧
      (∀ k, Field r.loc r.width k → st'.image k = st2.image k) ∧
      ∀ site v, st1.hi20At site = some v → ∃ q ∈ rels, HiAt host syms q site v := by
  obtain ⟨pre, post, rfl⟩ := List.append_of_mem hr
  obtain ⟨st1, hpre, h⟩ := foldlM_append_ok.mp h
  obtain ⟨st2, hstep, hpost⟩ := foldlM_cons_ok.mp h
  obtain ⟨-, hrest, hcross⟩ := List.pairwise_append.mp hno
  rw [List.pairwise_cons] at hrest
  refine ⟨st1, st2, applied_of_ok hstep, fun k hk => ?_, fun k hk => ?_, fun site v hv => ?_⟩
  · exact loop_frame hpre fun q hq hf => (hcross q hq r List.mem_cons_self).field hf hk
  · exact loop_frame hpost fun q hq => (hrest.1 q hq).field hk
  · obtain ⟨q, hq, hat⟩ := loop_hi20At hpre h0 hv
    exact ⟨q, List.mem_append_left _ hq, hat⟩

/-- Two HI20 entries at one site are one entry. -/
theorem eq_of_same_site (hno : NoOverlap rels) {a b : Reloc w} (ha : a ∈ rels) (hb : b ∈ rels)
    (hta : a.rtype = R.pcrelHi20) (htb : b.rtype = R.pcrelHi20) (e : a.loc = b.loc) : a = b := by
  by_contra hne
  have hap := hno.forall ha hb hne
  exact hap 0 (by rw [Reloc.width_eq_four hta (by decide)]; omega)
    0 (by rw [Reloc.width_eq_four htb (by decide)]; omega) (by rw [e])

end Loop

end P4Linux.Mkflt
