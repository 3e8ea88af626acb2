import P4Linux.Lib.Agree
import P4Linux.Mkflt.PcRel
import P4Linux.Mkflt.Branch

/-!
# The order of the relocation entries

One pass over the entries, and `hi20_at` is filled as it goes: a LO12 that comes before the HI20 at
its label is refused as if there were none. Nothing else depends on the order, as long as no two
entries patch a common byte; but where a RELA section is itself allocated, its entries are bytes of
the image, and another order is another image.

* `applyReloc_local` -- an entry sees its own field, and of `hi20_at` its own label;
* `hi20Table` -- what `hi20_at` ends as, whatever the order;
* `Behind` -- every LO12 comes behind the HI20 at its label;
* `loop_iff` -- the loop comes through where every entry does, given the whole table, and `Behind`
  holds; then what it leaves in each field depends on the entry only;
* `loop_same_iff` -- from two images, two orders leave the same bytes exactly where `SameBytes` holds;
* `order_iff` -- two orders of one object have the same outcome if and only if both or neither
  are `Behind` and their images are made the same, or something else is wrong with the object.
-/

namespace P4Linux.Mkflt

open Lua

variable {w : Nat}

/-! ## 1. What an entry sees -/

section Local

variable {host : Host} {syms : List (Symbol w)} {st st' : LinkState w} {r : Reloc w}

/-- The types whose symbol is the label of a HI20. -/
def Reloc.isLo (r : Reloc w) : Prop := r.rtype = R.pcrelLo12I ∨ r.rtype = R.pcrelLo12S

instance (r : Reloc w) : Decidable r.isLo := inferInstanceAs (Decidable (_ ∨ _))

/-- Two states with the same bytes at the keys in `P`. -/
def SameAt (P : BitVec w → Prop) (st st' : LinkState w) : Prop := ∀ k, P k → st.image k = st'.image k

/-- A write of the same byte, wherever it is, keeps two images the same on `P`. -/
theorem set_sameAt {P : BitVec w → Prop} {m m' : Image w} (h : ∀ k, P k → m k = m' k) (i : BitVec w) (b : UInt8) :
    ∀ k, P k → m.set i b k = m'.set i b k := by
  intro k hk
  unfold Image.set
  rw [h k hk]

theorem wr32_sameAt {P : BitVec w → Prop} {m m' : Image w} (h : ∀ k, P k → m k = m' k) (off v : BitVec w) :
    ∀ k, P k → wr32 m off v k = wr32 m' off v k :=
  set_sameAt (set_sameAt (set_sameAt (set_sameAt h _ _) _ _) _ _) _ _

/-- A word is read from the four keys of its field, and from no other. -/
theorem rd32_sameAt {m m' : Image w} {off : BitVec w} (h : ∀ k, Field off 4 k → m k = m' k) :
    rd32 m off = rd32 m' off := by
  have h1 : m (off + 1) = m' (off + 1) := h _ ⟨0, by omega, rfl⟩
  have h2 : m (off + 2) = m' (off + 2) := h _ ⟨1, by omega, rfl⟩
  have h3 : m (off + 3) = m' (off + 3) := h _ ⟨2, by omega, rfl⟩
  have h4 : m (off + 4) = m' (off + 4) := h _ ⟨3, by omega, rfl⟩
  unfold rd32
  rw [h1, h2, h3, h4]

/-- A patch sees the word it patches. -/
theorem modify_local {P : BitVec w → Prop} {off : BitVec w} (hoff : ∀ k, Field off 4 k → P k)
    (h : SameAt P st st') (f : BitVec w → BitVec w) :
    Agree (SameAt P) (modify st off f) (modify st' off f) := by
  unfold modify
  rw [rd32_sameAt fun k hk => h k (hoff k hk)]
  cases rd32 st'.image off with
  | error e => exact .error e e
  | ok x => exact agree_pure (wr32_sameAt h off (f x))

/-- What two runs of one entry have in common, for any relation of images that its patches keep; of
    `hi20_at` it sees the label a LO12 names. -/
theorem applyReloc_pair {P : Image w → Image w → Prop}
    (hset : ∀ {m m' : Image w} (off v : BitVec w), P m m' → P (wr32 m off v) (wr32 m' off v))
    (hmod : ∀ {t t' : LinkState w} {off : BitVec w} (f : BitVec w → BitVec w),
      (∀ k, Field off 4 k → Field r.loc r.width k) → P t.image t'.image →
      Agree (fun a b => P a.image b.image) (modify t off f) (modify t' off f))
    (h : P st.image st'.image)
    (hlabel : r.isLo → ∀ site, symaddr host syms r.rsym = .ok site → st.hi20At site = st'.hi20At site) :
    Agree (fun a b => P a.image b.image) (applyReloc host syms st r) (applyReloc host syms st' r) := by
  have hfour : ∀ {t}, r.rtype = t → t ∉ [R.none, R.relax, R.call, R.callPlt] →
      ∀ k, Field r.loc 4 k → Field r.loc r.width k := fun ht hn k hk => by
    rwa [Reloc.width_eq_four ht hn]
  unfold applyReloc
  refine agree_ite Iff.rfl (fun _ _ => .ok h) fun _ _ => ?_
  refine agree_ite Iff.rfl (fun _ _ => .error _ _) fun _ _ => ?_
  refine agree_ite Iff.rfl (fun ht _ => ?_) fun _ _ => ?_
  · exact agree_bind_self fun s _ => agree_pure (hset _ _ h)
  refine agree_ite Iff.rfl (fun _ _ => .error _ _) fun _ _ => ?_
  refine agree_ite Iff.rfl (fun ht _ => ?_) fun _ _ => ?_
  · refine agree_bind_self fun s _ => ?_
    exact hmod _ (hfour ht (by decide)) h
  refine agree_ite Iff.rfl (fun ht _ => ?_) fun _ _ => ?_
  · refine agree_bind_self fun site hsite => ?_
    have h4 : ∀ k, Field r.loc 4 k → Field r.loc r.width k :=
      ht.elim (fun ht => hfour ht (by decide)) fun ht => hfour ht (by decide)
    rw [hlabel ht site hsite]
    cases st'.hi20At site with
    | none => exact .error _ _
    | some v => exact agree_ite Iff.rfl (fun _ _ => hmod _ h4 h) fun _ _ => hmod _ h4 h
  refine agree_ite Iff.rfl (fun ht _ => ?_) fun _ _ => ?_
  · exact agree_bind_self fun s _ => hmod _ (hfour ht (by decide)) h
  refine agree_ite Iff.rfl (fun ht _ => ?_) fun _ _ => ?_
  · exact agree_bind_self fun s _ => hmod _ (hfour ht (by decide)) h
  refine agree_ite Iff.rfl (fun ht _ => ?_) fun _ _ => ?_
  · exact agree_bind_self fun s _ => hmod _ (hfour ht (by decide)) h
  refine agree_ite Iff.rfl (fun ht _ => ?_) fun _ _ => ?_
  · exact agree_bind_self fun s _ => agree_bind_self fun _ _ => hmod _ (hfour ht (by decide)) h
  refine agree_ite Iff.rfl (fun ht _ => ?_) fun _ _ => ?_
  · exact agree_bind_self fun s _ => agree_bind_self fun _ _ => hmod _ (hfour ht (by decide)) h
  refine agree_ite Iff.rfl (fun ht _ => ?_) fun _ _ => ?_
  · refine agree_bind_self fun s _ => ?_
    have hfirst : ∀ k, Field r.loc 4 k → Field r.loc r.width k := fun k hk => by
      rw [Reloc.width_eq_eight ht]
      exact hk.mono (by omega)
    have hsecond : ∀ k, Field (r.loc + 4) 4 k → Field r.loc r.width k := fun k hk => by
      rw [Reloc.width_eq_eight ht]
      exact field_add hk
    exact (hmod _ hfirst h).bind fun t t' _ _ ht => hmod _ hsecond ht
  refine agree_ite Iff.rfl (fun _ _ => ?_) fun _ _ => ?_
  · refine agree_bind_self fun s _ => ?_
    refine agree_ite Iff.rfl (fun ht _ => hmod _ (hfour ht (by decide)) h) fun _ _ => ?_
    refine agree_ite Iff.rfl (fun ht _ => hmod _ (hfour ht (by decide)) h) fun _ _ => ?_
    exact agree_ite Iff.rfl (fun _ _ => agree_pure (hset _ _ h)) fun _ _ => .error _ _
  exact agree_ite Iff.rfl (fun _ _ => .error _ _) fun _ _ => .error _ _

/-- **An entry sees nothing but its field**, and of `hi20_at` the label a LO12 names. -/
theorem applyReloc_local (h : SameAt (Field r.loc r.width) st st')
    (hlabel : r.isLo → ∀ site, symaddr host syms r.rsym = .ok site → st.hi20At site = st'.hi20At site) :
    Agree (SameAt (Field r.loc r.width)) (applyReloc host syms st r) (applyReloc host syms st' r) :=
  applyReloc_pair (P := fun m m' => ∀ k, Field r.loc r.width k → m k = m' k)
    (fun off v h => wr32_sameAt h off v) (fun f hoff h => modify_local hoff h f) h hlabel

/-- Two images with the same keys, whatever is at them. -/
def SameKeys (m m' : Image w) : Prop := ∀ k, (m' k).isSome = (m k).isSome

/-- Two writes to one key, of any two bytes. -/
theorem SameKeys.set {m m' : Image w} (h : SameKeys m m') (i : BitVec w) (b b' : UInt8) :
    SameKeys (m.set i b) (m'.set i b') := by
  intro k
  unfold Image.set
  split
  · rfl
  · exact h k

theorem SameKeys.wr32 {m m' : Image w} (h : SameKeys m m') (off v v' : BitVec w) :
    SameKeys (wr32 m off v) (wr32 m' off v') :=
  (((h.set _ _ _).set _ _ _).set _ _ _).set _ _ _

/-- As many bytes from the same key on. -/
theorem SameKeys.blit {m m' : Image w} (h : SameKeys m m') {b b' : List UInt8} (hlen : b'.length = b.length)
    (a : BitVec w) : SameKeys (blit m a b) (blit m' a b') := by
  induction b generalizing m m' b' a with
  | nil =>
    rw [List.eq_nil_of_length_eq_zero hlen]
    exact h
  | cons c b ih =>
    cases b' with
    | nil => cases hlen
    | cons c' b' => exact ih (h.set _ _ _) (Nat.succ.inj hlen) _

/-- So a read stops in both images or in neither. -/
theorem SameKeys.operand {m m' : Image w} (h : SameKeys m m') (k : BitVec w) :
    Agree (fun _ _ => True) (operand (w := w) (m k)) (operand (w := w) (m' k)) := by
  have hk := h k
  cases hm : m k with
  | none =>
    rw [hm] at hk
    rw [Option.isSome_eq_false_iff.mp hk |> Option.isNone_iff_eq_none.mp]
    exact .error _ _
  | some b =>
    rw [hm] at hk
    obtain ⟨b', hb'⟩ := Option.isSome_iff_exists.mp hk
    rw [hb']
    exact .ok trivial

theorem SameKeys.rd32 {m m' : Image w} (h : SameKeys m m') (off : BitVec w) :
    Agree (fun _ _ => True) (rd32 m off) (rd32 m' off) := by
  unfold Mkflt.rd32
  refine (h.operand _).bind fun _ _ _ _ _ => (h.operand _).bind fun _ _ _ _ _ => ?_
  exact (h.operand _).bind fun _ _ _ _ _ => (h.operand _).bind fun _ _ _ _ _ => agree_pure trivial

/-- Whether an entry is accepted depends on which keys the image has, not on its bytes. -/
theorem applyReloc_keys (h : SameKeys st.image st'.image)
    (hlabel : r.isLo → ∀ site, symaddr host syms r.rsym = .ok site → st.hi20At site = st'.hi20At site) :
    Agree (fun a b => SameKeys a.image b.image) (applyReloc host syms st r) (applyReloc host syms st' r) :=
  applyReloc_pair (fun off v h => h.wr32 off v v)
    (fun _ _ h => (h.rd32 _).bind fun _ _ _ _ _ => agree_pure (h.wr32 _ _ _)) h hlabel

end Local

/-! ## 2. The side table, whatever the order -/

section Table

variable {host : Host} {syms : List (Symbol w)} {rels rels' : List (Reloc w)} {st st' : LinkState w}
  {r : Reloc w}

/-- The distance a HI20 entry puts into `hi20_at`. -/
def hiValue (host : Host) (syms : List (Symbol w)) (q : Reloc w) : Option (BitVec w) :=
  if q.rtype = R.pcrelHi20 then (symaddr host syms q.rsym).toOption.map (· + q.addend - q.loc) else none

/-- `hi20_at` when every entry has been in it. -/
def hi20Table (host : Host) (syms : List (Symbol w)) (rels : List (Reloc w)) (i : BitVec w) :
    Option (BitVec w) :=
  (rels.find? fun q => decide (q.rtype = R.pcrelHi20 ∧ q.loc = i)).bind (hiValue host syms)

/-- That is what the branch of the loop enters. -/
theorem hiValue_some {q : Reloc w} {v : BitVec w} : hiValue host syms q = some v ↔ HiAt host syms q q.loc v := by
  unfold hiValue HiAt
  by_cases ht : q.rtype = R.pcrelHi20
  · rw [if_pos ht, Option.map_eq_some_iff]
    constructor
    · rintro ⟨s, hs, rfl⟩
      exact ⟨ht, rfl, s, ok_of_toOption hs, rfl⟩
    · rintro ⟨-, -, s, hs, rfl⟩
      exact ⟨s, by rw [hs]; rfl, rfl⟩
  · rw [if_neg ht]
    constructor
    · intro h
      cases h
    · rintro ⟨hq, -⟩
      exact absurd hq ht

/-- Two HI20 entries would share a byte at one label: there is one at most. -/
theorem hi20Table_eq (hno : NoOverlap rels) {q : Reloc w} (hq : q ∈ rels) (ht : q.rtype = R.pcrelHi20) :
    hi20Table host syms rels q.loc = hiValue host syms q := by
  unfold hi20Table
  cases hfind : rels.find? fun p => decide (p.rtype = R.pcrelHi20 ∧ p.loc = q.loc) with
  | none =>
    have hnot := List.find?_eq_none.mp hfind q hq
    exact absurd (decide_eq_true ⟨ht, rfl⟩) hnot
  | some p =>
    have hp := List.find?_some hfind
    obtain ⟨htp, hloc⟩ := of_decide_eq_true hp
    rw [eq_of_same_site hno (List.mem_of_find?_eq_some hfind) hq htp ht hloc]
    rfl

/-- The table answers with the one HI20 there is at the label. -/
theorem hi20Table_of_mem (hno : NoOverlap rels) {q : Reloc w} (hq : q ∈ rels) {i v : BitVec w}
    (h : HiAt host syms q i v) : hi20Table host syms rels i = some v := by
  obtain ⟨ht, rfl, hs⟩ := h
  rw [hi20Table_eq hno hq ht]
  exact hiValue_some.mpr ⟨ht, rfl, hs⟩

/-- The table is the same in every order. -/
theorem hi20Table_perm (hno : NoOverlap rels) (hperm : rels'.Perm rels) :
    hi20Table host syms rels' = hi20Table host syms rels := by
  have hno' : NoOverlap rels' := (hperm.pairwise_iff fun h => Std.Symm.symm _ _ h).mpr hno
  funext i
  by_cases h : ∃ q ∈ rels, q.rtype = R.pcrelHi20 ∧ q.loc = i
  · obtain ⟨q, hq, ht, rfl⟩ := h
    rw [hi20Table_eq hno hq ht, hi20Table_eq hno' (hperm.mem_iff.mpr hq) ht]
  · have hnone : ∀ l : List (Reloc w), (∀ q ∈ l, q ∈ rels) →
        l.find? (fun q => decide (q.rtype = R.pcrelHi20 ∧ q.loc = i)) = none := by
      intro l hl
      exact List.find?_eq_none.mpr fun q hq hd => h ⟨q, hl q hq, of_decide_eq_true hd⟩
    unfold hi20Table
    rw [hnone rels fun q hq => hq, hnone rels' fun q hq => hperm.mem_iff.mp hq]

/-- Every LO12 comes behind the HI20 at the label it names. -/
def Behind (host : Host) (syms : List (Symbol w)) (rels : List (Reloc w)) : Prop :=
  ∀ pre r post, rels = pre ++ r :: post → r.isLo → ∀ site, symaddr host syms r.rsym = .ok site →
    ∃ q ∈ pre, q.rtype = R.pcrelHi20 ∧ q.loc = site

/-- The same, place by place. -/
theorem behind_iff : Behind host syms rels ↔ ∀ i < rels.length, ∀ r ∈ rels[i]?.toList, r.isLo →
    Returns (symaddr host syms r.rsym) fun site => ∃ q ∈ rels.take i, q.rtype = R.pcrelHi20 ∧ q.loc = site := by
  constructor
  · intro h i hi r hr ht site hs
    have hsplit : rels = rels.take i ++ r :: rels.drop (i + 1) := by
      obtain ⟨_, e⟩ := List.getElem?_eq_some_iff.mp (Option.mem_toList.mp hr)
      rw [← e, List.getElem_cons_drop, List.take_append_drop]
    exact h _ r _ hsplit ht site hs
  · rintro h pre r post rfl ht site hs
    have hr : (pre ++ r :: post)[pre.length]? = some r := by simp
    obtain ⟨q, hq, hrest⟩ := h pre.length (by simp) r (Option.mem_toList.mpr hr) ht site hs
    rw [List.take_left] at hq
    exact ⟨q, hq, hrest⟩

instance : Decidable (Behind host syms rels) := decidable_of_iff _ behind_iff.symm

/-- The entry is accepted on the image `m` with every HI20 known. -/
def Accepted (host : Host) (syms : List (Symbol w)) (m : Image w) (rels : List (Reloc w)) (r : Reloc w) : Prop :=
  ∃ st, applyReloc host syms ⟨m, hi20Table host syms rels⟩ r = .ok st

/-- What a HI20 enters, and nothing else does. -/
theorem applied_table (h : Applied host syms st r st') :
    (r.rtype = R.pcrelHi20 → ∃ v, HiAt host syms r r.loc v ∧
      st'.hi20At = fun i => if i = r.loc then some v else st.hi20At i) ∧
    (r.rtype ≠ R.pcrelHi20 → st'.hi20At = st.hi20At) := by
  cases h
  case pcrelHi20 ht s x hs hx => exact ⟨fun _ => ⟨_, ⟨ht, rfl, s, hs, rfl⟩, rfl⟩, fun hne => absurd ht hne⟩
  all_goals
    refine ⟨fun hhi => ?_, fun _ => rfl⟩
    simp_all +decide

/-- A LO12 was applied with a distance that was in the table. -/
theorem applied_lo (h : Applied host syms st r st') (ht : r.isLo) {site : BitVec w}
    (hs : symaddr host syms r.rsym = .ok site) : ∃ v, st.hi20At site = some v := by
  cases h
  case pcrelLo12I site' v _ hs' hv _ =>
    obtain rfl : site' = site := Except.ok.inj (hs'.symm.trans hs)
    exact ⟨v, hv⟩
  case pcrelLo12S site' v _ hs' hv _ =>
    obtain rfl : site' = site := Except.ok.inj (hs'.symm.trans hs)
    exact ⟨v, hv⟩
  all_goals rcases ht with ht | ht <;> simp_all +decide

/-- **What a loop that came through says of each entry**: it would be accepted on the untouched image
    with the whole table, and its field holds what it then leaves. -/
theorem loop_accepts (hno : NoOverlap rels) (h0 : ∀ site, st.hi20At site = none)
    (h : rels.foldlM (applyReloc host syms) st = .ok st') (hr : r ∈ rels) :
    ∃ sr, applyReloc host syms ⟨st.image, hi20Table host syms rels⟩ r = .ok sr ∧
      SameAt (Field r.loc r.width) st' sr := by
  obtain ⟨pre, post, rfl⟩ := List.append_of_mem hr
  obtain ⟨st1, hpre, h⟩ := foldlM_append_ok.mp h
  obtain ⟨st2, hstep, hpost⟩ := foldlM_cons_ok.mp h
  obtain ⟨-, hrest, hcross⟩ := List.pairwise_append.mp hno
  rw [List.pairwise_cons] at hrest
  have hfield : SameAt (Field r.loc r.width) st1 ⟨st.image, hi20Table host syms (pre ++ r :: post)⟩ :=
    fun k hk => loop_frame hpre fun q hq hf => (hcross q hq r List.mem_cons_self).field hf hk
  have hlabel : r.isLo → ∀ site, symaddr host syms r.rsym = .ok site →
      st1.hi20At site = hi20Table host syms (pre ++ r :: post) site := by
    intro ht site hs
    obtain ⟨v, hv⟩ := applied_lo (applied_of_ok hstep) ht hs
    obtain ⟨q, hq, hat⟩ := loop_hi20At hpre h0 hv
    rw [hv, hi20Table_of_mem hno (List.mem_append_left _ hq) hat]
  have hagree := applyReloc_local hfield hlabel
  rw [hstep] at hagree
  cases hsr : applyReloc host syms ⟨st.image, hi20Table host syms (pre ++ r :: post)⟩ r with
  | error e =>
    rw [hsr] at hagree
    cases hagree
  | ok sr =>
    rw [hsr] at hagree
    cases hagree with
    | ok hsame =>
      refine ⟨sr, rfl, fun k hk => ?_⟩
      rw [loop_frame hpost fun q hq => (hrest.1 q hq).field hk]
      exact hsame k hk

/-- A loop that came through met every LO12 behind its HI20. -/
theorem loop_behind (h0 : ∀ site, st.hi20At site = none)
    (h : rels.foldlM (applyReloc host syms) st = .ok st') : Behind host syms rels := by
  rintro pre r post rfl ht site hs
  obtain ⟨st1, hpre, h⟩ := foldlM_append_ok.mp h
  obtain ⟨st2, hstep, -⟩ := foldlM_cons_ok.mp h
  obtain ⟨v, hv⟩ := applied_lo (applied_of_ok hstep) ht hs
  obtain ⟨q, hq, htq, hloc, -⟩ := loop_hi20At hpre h0 hv
  exact ⟨q, hq, htq, hloc⟩

/-- Along the loop: the fields still to come are untouched, and the table holds the HI20s so far. -/
structure SoFar (host : Host) (syms : List (Symbol w)) (rels : List (Reloc w)) (m : Image w)
    (done : List (Reloc w)) (st : LinkState w) : Prop where
  image : ∀ k, (∀ q ∈ done, ¬ Field q.loc q.width k) → st.image k = m k
  table : ∀ q ∈ done, q.rtype = R.pcrelHi20 → st.hi20At q.loc = hi20Table host syms rels q.loc

/-- **Step**: an accepted entry behind its HI20 is applied. -/
theorem SoFar.step (hno : NoOverlap rels) {m : Image w} {done rest : List (Reloc w)} (hrels : rels = done ++ r :: rest)
    (hb : Behind host syms rels) (ha : Accepted host syms m rels r) (hs : SoFar host syms rels m done st) :
    ∃ st', applyReloc host syms st r = .ok st' ∧ SoFar host syms rels m (done ++ [r]) st' := by
  obtain ⟨sr, hsr⟩ := ha
  have hmem : r ∈ rels := by simp [hrels]
  have hcross : ∀ q ∈ done, Apart q r := by
    intro q hq
    rw [hrels] at hno
    exact (List.pairwise_append.mp hno).2.2 q hq r List.mem_cons_self
  -- its field is as it was before the loop, because no entry done overlaps it; its label's HI20 is done
  have hfield : SameAt (Field r.loc r.width) ⟨m, hi20Table host syms rels⟩ st := fun k hk =>
    (hs.image k fun q hq hf => (hcross q hq).field hf hk).symm
  have hlabel : r.isLo → ∀ site, symaddr host syms r.rsym = .ok site →
      hi20Table host syms rels site = st.hi20At site := by
    intro ht site hsite
    obtain ⟨q, hq, htq, rfl⟩ := hb done r rest hrels ht site hsite
    exact (hs.table q hq htq).symm
  have hagree := applyReloc_local hfield hlabel
  rw [hsr] at hagree
  cases hstep : applyReloc host syms st r with
  | error e =>
    rw [hstep] at hagree
    cases hagree
  | ok st' =>
    refine ⟨st', rfl, fun k hk => ?_, fun q hq htq => ?_⟩
    · rw [applied_frame (applied_of_ok hstep) (hk r (by simp))]
      exact hs.image k fun q hq => hk q (List.mem_append_left _ hq)
    -- the table holds the HI20s done so far, and this one if it is one
    · obtain ⟨henter, hother⟩ := applied_table (applied_of_ok hstep)
      by_cases htr : r.rtype = R.pcrelHi20
      · obtain ⟨v, hat, htable⟩ := henter htr
        rw [htable]
        by_cases hloc : q.loc = r.loc
        · have hv : hi20Table host syms rels r.loc = some v := hi20Table_of_mem hno hmem hat
          rw [hloc, hv]
          exact if_pos rfl
        · have hold : q ∈ done := by
            rcases List.mem_append.mp hq with hq | hq
            · exact hq
            · exact absurd (by rw [List.mem_singleton.mp hq]) hloc
          exact (if_neg hloc).trans (hs.table q hold htq)
      · have hold : q ∈ done := by
          rcases List.mem_append.mp hq with hq | hq
          · exact hq
          · exact absurd (List.mem_singleton.mp hq ▸ htq) htr
        rw [hother htr]
        exact hs.table q hold htq

/-- **The loop comes through** where every entry would, given the whole table, and every LO12 is behind
    its HI20. -/
theorem loop_iff (hno : NoOverlap rels) {m : Image w} :
    (∃ st, rels.foldlM (applyReloc host syms) ⟨m, fun _ => none⟩ = .ok st) ↔
      (∀ r ∈ rels, Accepted host syms m rels r) ∧ Behind host syms rels := by
  constructor
  · rintro ⟨st, h⟩
    refine ⟨fun r hr => ?_, loop_behind (fun _ => rfl) h⟩
    obtain ⟨sr, hsr, -⟩ := loop_accepts hno (fun _ => rfl) h hr
    exact ⟨sr, hsr⟩
  · rintro ⟨hacc, hb⟩
    have hstart : SoFar host syms rels m [] ⟨m, fun _ => none⟩ :=
      ⟨fun _ _ => rfl, fun _ hq => absurd hq List.not_mem_nil⟩
    obtain ⟨st, hst, -⟩ := foldlM_progress (I := SoFar host syms rels m) (fun done r rest st hrels hs =>
      hs.step hno hrels hb (hacc r (by simp [hrels]))) hstart
    exact ⟨st, hst⟩

/-- Whether an entry is accepted does not depend on the bytes that it patches. -/
theorem Accepted.congr {m m' : Image w} (h : SameKeys m m') :
    Accepted host syms m' rels r ↔ Accepted host syms m rels r := by
  have hagree : Agree (fun x y => SameKeys x.image y.image) (applyReloc host syms ⟨m, hi20Table host syms rels⟩ r)
      (applyReloc host syms ⟨m', hi20Table host syms rels⟩ r) := applyReloc_keys h fun _ _ _ => rfl
  unfold Accepted
  revert hagree
  generalize applyReloc host syms ⟨m, hi20Table host syms rels⟩ r = x
  generalize applyReloc host syms ⟨m', hi20Table host syms rels⟩ r = y
  rintro (⟨e, e'⟩ | h)
  · simp
  · simp

/-- The key `k` of an image of `len` bytes is written to the file. -/
def Written (len k : BitVec w) : Prop := 0 < k.toNat ∧ k.toNat ≤ written len

/-- **Two images that the entries make the same**, before any entry is applied: no entry covers a byte in
    which they differ, or it leaves the same there. -/
structure SameBytes (host : Host) (syms : List (Symbol w)) (rels : List (Reloc w)) (len : BitVec w)
    (m m' : Image w) : Prop where
  untouched : ∀ k, Written len k → (∀ r ∈ rels, ¬ Field r.loc r.width k) → m' k = m k
  patched : ∀ r ∈ rels, Agree (SameAt fun k => Written len k ∧ Field r.loc r.width k)
    (applyReloc host syms ⟨m', hi20Table host syms rels⟩ r) (applyReloc host syms ⟨m, hi20Table host syms rels⟩ r)

/-- One image, whatever the entries make of it. -/
theorem sameBytes_self (len : BitVec w) (m : Image w) : SameBytes host syms rels len m m where
  untouched _ _ _ := rfl
  patched r _ := by
    cases applyReloc host syms ⟨m, hi20Table host syms rels⟩ r with
    | error e => exact .error e e
    | ok st => exact .ok fun _ _ => rfl

/-- **Two orders that come through leave the same bytes** exactly if the images they started from are made
    the same. -/
theorem loop_same_iff (hno : NoOverlap rels) (hperm : rels'.Perm rels) {len : BitVec w} {m m' : Image w}
    (h : rels.foldlM (applyReloc host syms) ⟨m, fun _ => none⟩ = .ok st)
    (h' : rels'.foldlM (applyReloc host syms) ⟨m', fun _ => none⟩ = .ok st') :
    (∀ k, Written len k → st'.image k = st.image k) ↔ SameBytes host syms rels len m m' := by
  have hno' : NoOverlap rels' := (hperm.pairwise_iff fun h => Std.Symm.symm _ _ h).mpr hno
  have hentry : ∀ r ∈ rels, ∃ sr sr', applyReloc host syms ⟨m, hi20Table host syms rels⟩ r = .ok sr ∧
      applyReloc host syms ⟨m', hi20Table host syms rels⟩ r = .ok sr' ∧
      SameAt (Field r.loc r.width) st sr ∧ SameAt (Field r.loc r.width) st' sr' := by
    intro r hr
    obtain ⟨sr, hsr, hsame⟩ := loop_accepts hno (fun _ => rfl) h hr
    obtain ⟨sr', hsr', hsame'⟩ := loop_accepts hno' (fun _ => rfl) h' (hperm.mem_iff.mpr hr)
    rw [hi20Table_perm hno hperm] at hsr'
    exact ⟨sr, sr', hsr, hsr', hsame, hsame'⟩
  -- a byte no entry covers stays as it was, and one that is covered is what its entry alone makes of it
  have hframe : ∀ k, (∀ r ∈ rels, ¬ Field r.loc r.width k) → st.image k = m k ∧ st'.image k = m' k := fun k hk =>
    ⟨loop_frame h hk, loop_frame h' fun r hr => hk r (hperm.mem_iff.mp hr)⟩
  constructor
  · intro hsame
    refine ⟨fun k hw hk => ?_, fun r hr => ?_⟩
    · obtain ⟨e, e'⟩ := hframe k hk
      rw [← e, ← e', hsame k hw]
    · obtain ⟨sr, sr', hsr, hsr', hst, hst'⟩ := hentry r hr
      rw [hsr, hsr']
      refine .ok fun k ⟨hw, hk⟩ => ?_
      rw [← hst k hk, ← hst' k hk, hsame k hw]
  · intro hb k hw
    by_cases hk : ∃ r ∈ rels, Field r.loc r.width k
    · obtain ⟨r, hr, hk⟩ := hk
      obtain ⟨sr, sr', hsr, hsr', hst, hst'⟩ := hentry r hr
      have hagree := hb.patched r hr
      rw [hsr, hsr'] at hagree
      cases hagree with
      | ok hsame => rw [hst k hk, hst' k hk, hsame k ⟨hw, hk⟩]
    · obtain ⟨e, e'⟩ := hframe k fun r hr hf => hk ⟨r, hr, hf⟩
      rw [e, e', hb.untouched k hw fun r hr hf => hk ⟨r, hr, hf⟩]

end Table

/-! ## 3. The object -/

/-- What the loop reads of one RELA or REL section: nothing where its target is not placed. -/
def entriesOf (d : List UInt8) (l : Layout w) (s : Section w) : List (Except Err (Reloc w)) :=
  match l.at? s.info with
  | some b => (List.range (idiv s.size (BitVec.ofNat w s.esz)).toInt.toNat).map fun k => readReloc d (s, b, k)
  | none => []

deriving instance DecidableEq for Header

deriving instance DecidableEq for Symbol

instance : DecidableEq (Section w) := fun s t =>
  decidable_of_iff (s.index = t.index ∧ s.name = t.name ∧ s.type = t.type ∧ s.flags = t.flags ∧
      s.offset = t.offset ∧ s.size = t.size ∧ s.link = t.link ∧ s.info = t.info ∧ s.align = t.align ∧
      s.entsize = t.entsize) (by cases s; cases t; simp)

/-- The same script with another objcopy: what it writes is taken from the object it is given. -/
def Host.withObjcopy (host : Host) (copy : List UInt8 → Objcopy) : Host := { host with objcopy := copy }

/-- Both fail alike, or both leave as many bytes. -/
def Objcopy.Alike : Objcopy → Objcopy → Prop
  | .bytes b, .bytes b' => b'.length = b.length
  | o, o' => o' = o

instance : ∀ o o' : Objcopy, Decidable (o.Alike o')
  | .bytes b, .bytes b' => inferInstanceAs (Decidable (b'.length = b.length))
  | .bytes b, .failed => inferInstanceAs (Decidable (Objcopy.failed = .bytes b))
  | .bytes b, .nothing => inferInstanceAs (Decidable (Objcopy.nothing = .bytes b))
  | .failed, o' => inferInstanceAs (Decidable (o' = .failed))
  | .nothing, o' => inferInstanceAs (Decidable (o' = .nothing))

/-- The symbols read the same, the entries of each REL section too, and those of each RELA section up
    to their order; objcopy finds sections of the same length, and other bytes only under the name of a
    RELA section. -/
structure SameEntries (host : Host) (copy : List UInt8 → Objcopy) (d d' : List UInt8)
    (sec : List (Section w)) : Prop where
  symbols : readSymbols host d' sec (layout sec) = readSymbols host d sec (layout sec)
  rela : ∀ s ∈ sec, s.isRela = true → (entriesOf d' (layout sec) s).Perm (entriesOf d (layout sec) s)
  rel : ∀ s ∈ sec, s.isRela = false → s.isReloc = true →
    entriesOf d' (layout sec) s = entriesOf d (layout sec) s
  alike : ∀ s ∈ sec, (host.objcopy s.name).Alike (copy s.name)
  copied : ∀ s ∈ sec, (∀ q ∈ sec, q.isRela = true → q.name ≠ s.name) → copy s.name = host.objcopy s.name

/-- **The same object with the entries of its RELA sections in another order**; `copy` is what objcopy
    gives for that object. -/
structure Reordered (w : Nat) (host : Host) (copy : List UInt8 → Objcopy) (d d' : List UInt8) : Prop where
  length : d'.length = d.length
  header : readHeader (w := w) host d' = readHeader host d
  sections : Returns (readHeader host d) fun e : Header w => readSections d' e = readSections d e
  entries : Returns (readHeader host d) fun e : Header w => Returns (readSections d e) (SameEntries host copy d d')

instance (host : Host) (copy : List UInt8 → Objcopy) (d d' : List UInt8) (sec : List (Section w)) :
    Decidable (SameEntries host copy d d' sec) :=
  decidable_of_iff (_ ∧ _ ∧ _ ∧ _ ∧ _) ⟨fun ⟨h1, h2, h3, h4, h5⟩ => ⟨h1, h2, h3, h4, h5⟩,
    fun h => ⟨h.symbols, h.rela, h.rel, h.alike, h.copied⟩⟩

instance (host : Host) (copy : List UInt8 → Objcopy) (d d' : List UInt8) : Decidable (Reordered w host copy d d') :=
  decidable_of_iff (_ ∧ _ ∧ _ ∧ _)
    ⟨fun ⟨h1, h2, h3, h4⟩ => ⟨h1, h2, h3, h4⟩, fun h => ⟨h.length, h.header, h.sections, h.entries⟩⟩

section Object

variable {host : Host} {copy : List UInt8 → Objcopy} {stack : BitVec w} {d d' : List UInt8} {obj obj' : Obj w}

/-- The bytes of a section are what objcopy answers for its name. -/
theorem sectionBytes_congr {host' : Host} {s : Section w} (h : host'.objcopy s.name = host.objcopy s.name) :
    sectionBytes host' s = sectionBytes host s := by
  unfold sectionBytes
  rw [h]

/-- The answers are checked alike: only how many bytes there are is compared with the header. -/
theorem sectionBytes_alike {host' : Host} {s : Section w}
    (h : (host.objcopy s.name).Alike (host'.objcopy s.name)) :
    Agree (fun b b' => b'.length = b.length) (sectionBytes host s) (sectionBytes host' s) := by
  unfold sectionBytes
  generalize host.objcopy s.name = o at h ⊢
  generalize host'.objcopy s.name = o' at h ⊢
  cases o with
  | failed =>
    obtain rfl : o' = .failed := h
    exact .error _ _
  | nothing =>
    obtain rfl : o' = .nothing := h
    exact .error _ _
  | bytes b =>
    cases o' with
    | failed => cases (h : Objcopy.failed = .bytes b)
    | nothing => cases (h : Objcopy.nothing = .bytes b)
    | bytes b' =>
      have hlen : b'.length = b.length := h
      have hread : Agree (fun c c' => c'.length = c.length) (readAll w b) (readAll w b') := by
        unfold readAll
        rw [hlen]
        exact agree_ite Iff.rfl (fun _ _ => .ok hlen) fun _ _ => .error _ _
      refine hread.bind fun c c' _ _ hc => ?_
      rw [hc]
      exact agree_bind_self fun _ _ => agree_pure hc

/-- **What the two runs have loaded**: the same but for bytes of the image. -/
structure Twin (obj obj' : Obj w) : Prop where
  sec : obj'.sec = obj.sec
  lay : obj'.lay = obj.lay
  syms : obj'.syms = obj.syms
  keys : SameKeys obj.image obj'.image

/-- The two images have the same keys, and bytes that differ where the two answers do. -/
theorem blitAll_alike {sec : List (Section w)} {l : Layout w}
    (h : ∀ s ∈ sec, (host.objcopy s.name).Alike (copy s.name)) :
    Agree SameKeys (blitAll host sec l) (blitAll (host.withObjcopy copy) sec l) := by
  unfold blitAll
  refine Agree.foldlM (Q := Eq) (List.forall₂_same.mpr fun _ _ => rfl) (fun m m' s s' hs e hm => ?_) fun _ => rfl
  subst e
  unfold blitStep
  cases l.base s.index with
  | none => exact .ok hm
  | some b =>
    refine agree_ite Iff.rfl (fun _ _ => .ok hm) fun _ _ => ?_
    have hbytes : Agree (fun c c' => c'.length = c.length) (sectionBytes host s)
        (sectionBytes (host.withObjcopy copy) s) := sectionBytes_alike (h s hs)
    exact hbytes.bind fun c c' _ _ hc => agree_pure (hm.blit hc b)

/-- **Both objects load or neither**: nothing before the loop sees the entries. -/
theorem load_reordered (h : Reordered w host copy d d') :
    Agree Twin (load (w := w) host d) (load (w := w) (host.withObjcopy copy) d') := by
  unfold load
  have hread : ∀ b : List UInt8, readAll w b = if b.length ≤ maxString w then .ok b else .error .memory :=
    fun _ => rfl
  rw [hread, hread, h.length]
  split
  · show Agree Twin (readHeader host d >>= fun e : Header w => _) (readHeader host d' >>= fun e : Header w => _)
    rw [h.header]
    refine agree_bind_self fun e he => ?_
    rw [h.sections e he]
    refine agree_bind_self fun sec hsec => ?_
    have hsame := h.entries e he sec hsec
    refine agree_bind_self fun _ _ => ?_
    refine (blitAll_alike hsame.alike).bind fun m m' _ _ hm => ?_
    show Agree Twin (readSymbols host d sec (layout sec) >>= fun syms => _)
      (readSymbols host d' sec (layout sec) >>= fun syms => _)
    rw [hsame.symbols]
    exact agree_bind_self fun syms _ => agree_pure ⟨rfl, rfl, rfl, hm⟩
  · exact .error _ _

/-- **Where no RELA section shares its name with one that is blitted**, the two runs have loaded the same
    image. -/
theorem image_reordered (h : Reordered w host copy d d') (hload : load host d = .ok obj)
    (hload' : load (host.withObjcopy copy) d' = .ok obj')
    (hname : ∀ s ∈ obj.sec, (obj.lay.base s.index).isSome = true → s.nobits = false →
      ∀ q ∈ obj.sec, q.isRela = true → q.name ≠ s.name) : obj'.image = obj.image := by
  have htwin := load_reordered h
  rw [hload, hload'] at htwin
  cases htwin with
  | ok htwin =>
    obtain ⟨-, e, he, hsec, hlay, hblit, -⟩ := load_ok hload
    obtain ⟨-, -, -, -, -, hblit', -⟩ := load_ok hload'
    rw [htwin.sec, htwin.lay] at hblit'
    have hcopied := (h.entries e he _ hsec).copied
    have hagree : Agree Eq (blitAll host obj.sec obj.lay) (blitAll (host.withObjcopy copy) obj.sec obj.lay) := by
      refine Agree.foldlM (Q := Eq) (List.forall₂_same.mpr fun _ _ => rfl) (fun m m' s s' hs e hm => ?_) rfl
      subst e hm
      unfold blitStep
      cases hb : obj.lay.base s.index with
      | none => exact .ok rfl
      | some b =>
        refine agree_ite Iff.rfl (fun _ _ => .ok rfl) fun hno _ => ?_
        have hcopy : copy s.name = host.objcopy s.name :=
          hcopied s hs (hname s hs (by rw [hb]; rfl) (Bool.eq_false_of_not_eq_true hno))
        rw [sectionBytes_congr (show (host.withObjcopy copy).objcopy s.name = host.objcopy s.name from hcopy)]
        exact agree_bind_self fun c _ => agree_pure rfl
    rw [hblit, hblit'] at hagree
    cases hagree with
    | ok e => exact e.symm

/-- Everything the loop reads, in its order. -/
def reads (d : List UInt8) (obj : Obj w) : List (Except Err (Reloc w)) :=
  (relocSites obj.sec obj.lay).map (readReloc d)

/-- The entries, out of what the loop reads. -/
theorem relocs_eq : relocs d obj = (reads d obj).filterMap Except.toOption := by
  unfold relocs reads
  rw [List.filterMap_map]
  rfl

/-- Section by section. -/
theorem reads_eq : reads d obj = obj.sec.flatMap fun s => if s.isReloc then entriesOf d obj.lay s else [] := by
  unfold reads relocSites entriesOf
  rw [List.map_flatMap]
  congr 1
  funext s
  cases hreloc : s.isReloc with
  | false => rfl
  | true =>
    cases hb : obj.lay.at? s.info with
    | none => rfl
    | some b => exact List.map_map

/-- The sections are visited in one order, and each gives the same entries in another. -/
theorem reads_perm (h : Reordered w host copy d d') (hload : load host d = .ok obj) :
    (reads d' obj).Perm (reads d obj) := by
  obtain ⟨-, e, he, hsec, hlay, -, -⟩ := load_ok hload
  have hsame := h.entries e he _ hsec
  rw [reads_eq, reads_eq, hlay]
  refine List.Perm.flatMap_left _ fun s hs => ?_
  split
  · rename_i hreloc
    cases hrela : s.isRela with
    | true => exact hsame.rela s hs hrela
    | false => exact .of_eq (hsame.rel s hs hrela hreloc)
  · exact .refl _

theorem relocs_perm (h : Reordered w host copy d d') (hload : load host d = .ok obj) :
    (relocs d' obj).Perm (relocs d obj) := by
  rw [relocs_eq, relocs_eq]
  exact (reads_perm h hload).filterMap _

/-- The loop reads every entry and applies it. -/
theorem relocLoop_iff {syms : List (Symbol w)} {m : Image w} {st : LinkState w} :
    relocLoop host d syms (relocSites obj.sec obj.lay) m = .ok st ↔
      (∀ x ∈ reads d obj, ∃ r, x = .ok r) ∧
        (relocs d obj).foldlM (applyReloc host syms) ⟨m, fun _ => none⟩ = .ok st := by
  unfold relocLoop relocs reads
  generalize (⟨m, fun _ => none⟩ : LinkState w) = st0
  generalize relocSites obj.sec obj.lay = sites
  induction sites generalizing st0 with
  | nil => simp
  | cons site sites ih =>
    rw [foldlM_cons_ok, List.filterMap_cons, List.map_cons, List.forall_mem_cons]
    cases hr : readReloc d site with
    | error e =>
      constructor
      · rintro ⟨st1, hstep, -⟩
        obtain ⟨r, hr', -⟩ := bind_ok.mp hstep
        rw [hr] at hr'
        cases hr'
      · rintro ⟨⟨⟨r, hr'⟩, -⟩, -⟩
        cases hr'
    | ok r =>
      have hstep : ∀ st1, relocStep host d syms st0 site = .ok st1 ↔ applyReloc host syms st0 r = .ok st1 := by
        intro st1
        unfold relocStep
        rw [hr]
        rfl
      constructor
      · rintro ⟨st1, h1, hrest⟩
        obtain ⟨hreads, hfold⟩ := (ih st1).mp hrest
        exact ⟨⟨⟨r, rfl⟩, hreads⟩, foldlM_cons_ok.mpr ⟨st1, (hstep st1).mp h1, hfold⟩⟩
      · rintro ⟨⟨-, hreads⟩, hfold⟩
        obtain ⟨st1, h1, hfold⟩ := foldlM_cons_ok.mp hfold
        exact ⟨st1, (hstep st1).mpr h1, (ih st1).mpr ⟨hreads, hfold⟩⟩

/-! ## 4. The rest of the script -/

/-- The stages of the script, as an equivalence. -/
theorem mkflt_iff {out : List UInt8} : mkflt w host stack d = .ok out ↔
    ¬ stack.slt (BitVec.ofNat w 1024) ∧ host.canWrite = true ∧
      ∃ (obj : Obj w) (st : LinkState w) (body : List UInt8), load host d = .ok obj ∧
        relocLoop host d obj.syms (relocSites obj.sec obj.lay) obj.image = .ok st ∧
        blob st.image obj.lay.imageLen = .ok body ∧
        header obj.lay.imageLen (entryPoint obj.syms) stack ++ body = out := by
  unfold mkflt
  constructor
  · intro h
    obtain ⟨_, hstack, h⟩ := bind_ok.mp h
    obtain ⟨obj, hobj, h⟩ := bind_ok.mp h
    obtain ⟨st, hst, h⟩ := bind_ok.mp h
    obtain ⟨body, hbody, h⟩ := bind_ok.mp h
    obtain ⟨_, -, h⟩ := bind_ok.mp h
    obtain ⟨_, hwrite, h⟩ := bind_ok.mp h
    exact ⟨dieIf_ok.mp hstack, by simpa using dieIf_ok.mp hwrite, obj, st, body, hobj, hst, hbody, pure_ok.mp h⟩
  · rintro ⟨hstack, hwrite, obj, st, body, hobj, hst, hbody, rfl⟩
    refine bind_ok.mpr ⟨(), dieIf_ok.mpr hstack, bind_ok.mpr ⟨obj, hobj, bind_ok.mpr ⟨st, hst, ?_⟩⟩⟩
    refine bind_ok.mpr ⟨body, hbody, bind_ok.mpr ⟨(), dieIf_ok.mpr ?_, bind_ok.mpr ⟨(), dieIf_ok.mpr ?_, rfl⟩⟩⟩
    · exact not_not.mpr (header_length _ _ _)
    · rw [hwrite]
      exact Bool.noConfusion

/-- The image keys `1 .. len`. -/
def InRange (len k : BitVec w) : Prop := 0 < k.toInt ∧ k.toInt ≤ len.toInt

/-- **The chunks can be written** where the image has every key. -/
theorem blob_ends (hw : 32 ≤ w) {m : Image w} {len : BitVec w} (hm : ∀ k, InRange len k → (m k).isSome = true) :
    ∃ body, blob m len = .ok body := by
  have hlen : len.toInt < ((2 ^ (w - 1) : Nat) : Int) := by
    push_cast
    exact BitVec.toInt_lt
  have hpart : ∀ j ∈ List.range ((len.toInt + 199) / 200).toNat,
      ∃ r, part m len (1 + 200 * BitVec.ofNat w j) = .ok r := by
    intro j hj
    rw [List.mem_range] at hj
    have hlast : (if len.slt (BitVec.ofNat w (200 * j + 1) + 199) then len
        else BitVec.ofNat w (200 * j + 1) + 199).toInt ≤ len.toInt := by
      split
      · exact Int.le_refl _
      · rename_i hs
        rw [BitVec.slt_iff_toInt_lt] at hs
        omega
    unfold part
    rw [chunk_first]
    unfold unpack
    refine exists_mapM fun i hi => ?_
    rw [List.mem_range, toInt_ofNat_lt hw (by omega)] at hi
    have hkey : (BitVec.ofNat w (200 * j + 1) + BitVec.ofNat w i).toInt = (200 * j + 1 + i : Nat) := by
      rw [← BitVec.ofNat_add, toInt_ofNat_lt hw (by omega)]
    obtain ⟨c, hc⟩ := Option.isSome_iff_exists.mp
      (hm (BitVec.ofNat w (200 * j + 1) + BitVec.ofNat w i) ⟨by omega, by omega⟩)
    rw [hc]
    exact ⟨c, rfl⟩
  obtain ⟨parts, hparts⟩ := exists_mapM hpart
  exact ⟨parts.flatten, bind_ok.mpr ⟨parts, hparts, rfl⟩⟩

/-- A positive integer of the script is the number itself, below the sign bit. -/
theorem toNat_of_pos (hw : 32 ≤ w) {x : BitVec w} (h : 0 < x.toInt) :
    (x.toNat : Int) = x.toInt ∧ x.toNat < 2 ^ (w - 1) := by
  have h2 : 2 ^ w = 2 * 2 ^ (w - 1) := by
    rw [← Nat.pow_succ']
    congr 1
    omega
  have hlt := x.isLt
  rw [BitVec.toInt_eq_toNat_cond] at h ⊢
  split at h
  · rename_i hx
    rw [if_pos hx]
    exact ⟨rfl, by omega⟩
  · omega

/-- Every key that is written is there before the first relocation. -/
theorem image_present (hw : 32 ≤ w) (hload : load host d = .ok obj) {k : BitVec w}
    (hk : InRange obj.lay.imageLen k) : (obj.image k).isSome = true := by
  obtain ⟨-, e, -, -, hlay, hblit, -⟩ := load_ok hload
  rw [hlay] at hblit hk
  refine foldlM_keeps (P := fun m => (m k).isSome = true) (fun s _ m m' hm hmk => ?_) hblit ?_
  · unfold blitStep at hm
    split at hm
    · split at hm
      · exact Except.ok.inj hm ▸ hmk
      · obtain ⟨bs, -, hm⟩ := bind_ok.mp hm
        rw [← pure_ok.mp hm]
        exact isSome_blit hmk
    · exact Except.ok.inj hm ▸ hmk
  · obtain ⟨hpos, hle⟩ := hk
    obtain ⟨ek, hk⟩ := toNat_of_pos hw hpos
    obtain ⟨elen, hlen⟩ := toNat_of_pos hw (Int.lt_of_lt_of_le hpos hle)
    show (blank (layout obj.sec).imageLen k).isSome = true
    rw [blank_inside hw hlen (by omega) (by omega)]
    rfl

/-! ## 5. The order -/

/-- Nothing but the order of the entries can make the script refuse the object: it reads every entry,
    and every entry is accepted with every HI20 known. -/
structure Linkable (host : Host) (stack : BitVec w) (d : List UInt8) (obj : Obj w) : Prop where
  stack : ¬ stack.slt (BitVec.ofNat w 1024)
  writes : host.canWrite = true
  reads : ∀ x ∈ reads d obj, ∃ r, x = .ok r
  accepts : ∀ r ∈ relocs d obj, Accepted host obj.syms obj.image (relocs d obj) r

/-- **The script writes a file** exactly for a linkable object whose LO12s are behind their HI20s. -/
theorem writes_iff (hw : 32 ≤ w) (hload : load host d = .ok obj) (hno : NoOverlap (relocs d obj)) :
    (∃ out, mkflt w host stack d = .ok out) ↔
      Linkable host stack d obj ∧ Behind host obj.syms (relocs d obj) := by
  constructor
  · rintro ⟨out, h⟩
    obtain ⟨hstack, hwrite, obj', st, body, hobj, hloop, -, -⟩ := mkflt_iff.mp h
    obtain rfl := Except.ok.inj (hobj.symm.trans hload)
    obtain ⟨hreads, hfold⟩ := relocLoop_iff.mp hloop
    obtain ⟨haccepts, hbehind⟩ := (loop_iff hno).mp ⟨st, hfold⟩
    exact ⟨⟨hstack, hwrite, hreads, haccepts⟩, hbehind⟩
  · rintro ⟨hl, hbehind⟩
    obtain ⟨st, hfold⟩ := (loop_iff hno).mpr ⟨hl.accepts, hbehind⟩
    obtain ⟨body, hbody⟩ := blob_ends hw fun k hk => isSome_loop hfold (image_present hw hload hk)
    exact ⟨_, mkflt_iff.mpr ⟨hl.stack, hl.writes, obj, st, body, hload,
      relocLoop_iff.mpr ⟨hl.reads, hfold⟩, hbody, rfl⟩⟩

/-- The two runs meet the same entries in the same objects, in another order. -/
theorem Twin.relocs (h : Twin obj obj') (b : List UInt8) : relocs b obj' = relocs b obj := by
  unfold Mkflt.relocs
  rw [h.sec, h.lay]

/-- Nothing in it depends on the order: not the table, nor what an entry makes of its field. -/
theorem Linkable.reordered (h : Reordered w host copy d d') (hload : load host d = .ok obj) (ht : Twin obj obj')
    (hno : NoOverlap (relocs d obj)) : Linkable (host.withObjcopy copy) stack d' obj' ↔ Linkable host stack d obj := by
  have hreads : Mkflt.reads d' obj' = Mkflt.reads d' obj := by
    unfold Mkflt.reads
    rw [ht.sec, ht.lay]
  have hperm := reads_perm h hload
  have hrelocs := relocs_perm h hload
  have haccept : ∀ r, Accepted (host.withObjcopy copy) obj'.syms obj'.image (relocs d' obj') r ↔
      Accepted host obj.syms obj.image (relocs d obj) r := by
    intro r
    rw [ht.syms, ht.relocs]
    show Accepted host obj.syms obj'.image (relocs d' obj) r ↔ _
    rw [Accepted.congr ht.keys]
    unfold Accepted
    rw [hi20Table_perm hno hrelocs]
  constructor
  · rintro ⟨hstack, hwrite, hread, hacc⟩
    rw [hreads] at hread
    rw [ht.relocs] at hacc
    exact ⟨hstack, hwrite, fun x hx => hread x (hperm.mem_iff.mpr hx), fun r hr =>
      (haccept r).mp (ht.relocs d' ▸ hacc r (hrelocs.mem_iff.mpr hr))⟩
  · rintro ⟨hstack, hwrite, hread, hacc⟩
    refine ⟨hstack, hwrite, fun x hx => ?_, fun r hr => ?_⟩
    · rw [hreads] at hx
      exact hread x (hperm.mem_iff.mp hx)
    · rw [ht.relocs] at hr
      exact (haccept r).mpr (hacc r (hrelocs.mem_iff.mp hr))

/-- The files are equal exactly if the images are, as far as they are written. -/
theorem blob_eq_iff (hw : 32 ≤ w) {m m' : Image w} {len : BitVec w} {body body' : List UInt8}
    (h : blob m len = .ok body) (h' : blob m' len = .ok body') :
    body' = body ↔ ∀ k, Written len k → m' k = m k := by
  have hlast := lastKey_lt (w := w)
  have h2 := two_pow_pred_lt hw
  have hle : written len ≤ lastKey w := Nat.min_le_right _ _
  rw [← List.map_inj_right (Option.some_injective UInt8), blob_map hw h, blob_map hw h', List.map_inj_left]
  constructor
  · rintro hsame k ⟨hpos, hk⟩
    have hkey := hsame (k.toNat - 1) (List.mem_range.mpr (by omega))
    rwa [Nat.sub_add_cancel hpos, BitVec.ofNat_toNat, BitVec.setWidth_eq] at hkey
  · intro hsame i hi
    rw [List.mem_range] at hi
    have hi' : (BitVec.ofNat w (i + 1)).toNat = i + 1 := by
      rw [BitVec.toNat_ofNat, Nat.mod_eq_of_lt (by omega)]
    exact hsame _ ⟨by omega, by omega⟩

/-- **Two orders that are both written are written alike** exactly if their images are made the same. -/
theorem same_file_iff (hw : 32 ≤ w) (h : Reordered w host copy d d') (hload : load host d = .ok obj)
    (ht : Twin obj obj') (hload' : load (host.withObjcopy copy) d' = .ok obj') (hno : NoOverlap (relocs d obj))
    {out out' : List UInt8} (hout : mkflt w host stack d = .ok out)
    (hout' : mkflt w (host.withObjcopy copy) stack d' = .ok out') :
    out' = out ↔ SameBytes host obj.syms (relocs d obj) obj.lay.imageLen obj.image obj'.image := by
  obtain ⟨-, -, obj1, st, body, hload1, hloop, hbody, rfl⟩ := mkflt_iff.mp hout
  obtain ⟨-, -, obj2, st', body', hload2, hloop', hbody', rfl⟩ := mkflt_iff.mp hout'
  obtain rfl := Except.ok.inj (hload.symm.trans hload1)
  obtain rfl := Except.ok.inj (hload'.symm.trans hload2)
  have hfold := (relocLoop_iff.mp hloop).2
  have hfold' := (relocLoop_iff.mp hloop').2
  rw [ht.relocs, ht.syms] at hfold'
  rw [ht.lay, ht.syms, List.append_cancel_left_eq]
  rw [ht.lay] at hbody'
  rw [blob_eq_iff hw hbody hbody']
  exact loop_same_iff hno (relocs_perm h hload) hfold hfold'

/-- An object that does not load has no file. -/
theorem not_written {e : Err} (h : load (w := w) host d = .error e) (out : List UInt8) :
    mkflt w host stack d ≠ .ok out := by
  intro hout
  obtain ⟨-, -, obj, _, _, hobj, -⟩ := mkflt_iff.mp hout
  rw [h] at hobj
  cases hobj

/-- **Of two orders that load**: that a file is written, and then that it is the same one, each as an
    equivalence. -/
theorem outcome_iff (hw : 32 ≤ w) (h : Reordered w host copy d d') (hload : load host d = .ok obj)
    (ht : Twin obj obj') (hload' : load (host.withObjcopy copy) d' = .ok obj') (hno : NoOverlap (relocs d obj)) :
    (mkflt w (host.withObjcopy copy) stack d').toOption = (mkflt w host stack d).toOption ↔
      (Linkable host stack d obj →
        (Behind host obj.syms (relocs d' obj) ↔ Behind host obj.syms (relocs d obj)) ∧
        (Behind host obj.syms (relocs d obj) →
          SameBytes host obj.syms (relocs d obj) obj.lay.imageLen obj.image obj'.image)) := by
  have hno' : NoOverlap (relocs d' obj') := by
    rw [ht.relocs]
    exact ((relocs_perm h hload).pairwise_iff fun h => Std.Symm.symm _ _ h).mpr hno
  have hbehind : Behind (host.withObjcopy copy) obj'.syms (relocs d' obj') ↔
      Behind host obj.syms (relocs d' obj) := by
    rw [ht.relocs, ht.syms]
    rfl
  have hwrites : (∃ out, mkflt w host stack d = .ok out) ↔
      Linkable host stack d obj ∧ Behind host obj.syms (relocs d obj) :=
    writes_iff hw hload hno
  have hwrites' : (∃ out, mkflt w (host.withObjcopy copy) stack d' = .ok out) ↔
      Linkable host stack d obj ∧ Behind host obj.syms (relocs d' obj) := by
    rw [writes_iff hw hload' hno', Linkable.reordered h hload ht hno, hbehind]
  rw [toOption_eq_iff, hwrites, hwrites', and_congr_right_iff]
  constructor
  · rintro ⟨hiff, hsame⟩ hl
    refine ⟨hiff hl, fun hb => ?_⟩
    obtain ⟨out, hout⟩ := hwrites.mpr ⟨hl, hb⟩
    obtain ⟨out', hout'⟩ := hwrites'.mpr ⟨hl, (hiff hl).mpr hb⟩
    exact (same_file_iff hw h hload ht hload' hno hout hout').mp (hsame out out' hout hout')
  · intro hall
    refine ⟨fun hl => (hall hl).1, fun out out' hout hout' => ?_⟩
    obtain ⟨hl, hb⟩ := hwrites.mp ⟨out, hout⟩
    exact (same_file_iff hw h hload ht hload' hno hout hout').mpr ((hall hl).2 hb)

/-- **Two orders of one object have the same outcome** if and only if, where nothing else is wrong with
    the object, the LO12s are behind their HI20s in both or in neither, and no byte of an entry that is
    itself in the image is left to differ. -/
theorem order_iff (hw : w = 64 ∨ w = 32) (h : Reordered w host copy d d')
    (hno : Returns (load host d) fun obj : Obj w => NoOverlap (relocs d obj)) :
    (mkflt w (host.withObjcopy copy) stack d').toOption = (mkflt w host stack d).toOption ↔
      ∀ obj obj' : Obj w, load host d = .ok obj → load (host.withObjcopy copy) d' = .ok obj' →
        Linkable host stack d obj →
        (Behind host obj.syms (relocs d' obj) ↔ Behind host obj.syms (relocs d obj)) ∧
        (Behind host obj.syms (relocs d obj) →
          SameBytes host obj.syms (relocs d obj) obj.lay.imageLen obj.image obj'.image) := by
  have htwin := load_reordered h
  generalize hload : load (w := w) host d = x at htwin
  generalize hload' : load (w := w) (host.withObjcopy copy) d' = y at htwin
  cases htwin with
  | error e e' =>
    refine iff_of_true ?_ fun obj obj' hobj => by cases hobj
    rw [toOption_eq_iff]
    exact ⟨⟨fun ⟨out, ho⟩ => absurd ho (not_written hload' out), fun ⟨out, ho⟩ => absurd ho (not_written hload out)⟩,
      fun out _ ho => absurd ho (not_written hload out)⟩
  | @ok obj obj' ht =>
    rw [outcome_iff (by omega) h hload ht hload' (hno obj hload)]
    constructor
    · rintro hall _ _ ⟨⟩ ⟨⟩
      exact hall
    · exact fun hall => hall obj obj' rfl rfl

end Object

/-! ## 6. Two orders -/

/-- `lla a0, msg` and a `jal` to itself, with the jump's entry first or last. -/
def jumpFirst (first : Bool) : List Elf.Sec :=
  let jump := Elf.rela 8 3 R.jal 0
  let pair := [Elf.rela 0 2 R.pcrelHi20 0, Elf.rela 4 1 R.pcrelLo12I 0]
  Elf.program [0x17, 0x05, 0, 0, 0x13, 0x05, 0x05, 0, 0x6f, 0, 0, 0]
    (if first then jump :: pair else pair ++ [jump]) [Elf.sym 0 0, Elf.sym 0 1, Elf.sym 8 1, Elf.sym 8 1] []

/-- The jump shares no byte with the pair, and may come before it or behind it. -/
theorem order_iff_jump :
    (mkflt 32 (.ofSections (jumpFirst true)) 8192 (Elf.object (jumpFirst true))).toOption =
      (mkflt 32 (.ofSections (jumpFirst false)) 8192 (Elf.object (jumpFirst false))).toOption := by
  have hload : Returns (load (w := 32) (.ofSections (jumpFirst false)) (Elf.object (jumpFirst false)))
      fun obj => NoOverlap (relocs (Elf.object (jumpFirst false)) obj) ∧
        Behind (.ofSections (jumpFirst false)) obj.syms (relocs (Elf.object (jumpFirst true)) obj) ∧
        Behind (.ofSections (jumpFirst false)) obj.syms (relocs (Elf.object (jumpFirst false)) obj) ∧
        ∀ s ∈ obj.sec, (obj.lay.base s.index).isSome = true → s.nobits = false →
          ∀ q ∈ obj.sec, q.isRela = true → q.name ≠ s.name := by
    decide +kernel
  have hreordered : Reordered 32 (.ofSections (jumpFirst false)) (Host.ofSections (jumpFirst true)).objcopy
      (Elf.object (jumpFirst false)) (Elf.object (jumpFirst true)) := by decide +kernel
  refine (order_iff (.inr rfl) hreordered fun obj hobj => (hload obj hobj).1).mpr fun obj obj' hobj hobj' _ => ?_
  obtain ⟨-, hfirst, hlast, hname⟩ := hload obj hobj
  refine ⟨iff_of_true hfirst hlast, fun _ => ?_⟩
  rw [image_reordered hreordered hobj hobj' hname]
  exact sameBytes_self _ _

/-- `llaProgram` with its two entries the other way round. -/
def swappedProgram : List Elf.Sec :=
  Elf.program [0x17, 0x05, 0, 0, 0x13, 0x05, 0x05, 0, 1, 2, 3, 4]
    [Elf.rela 4 1 R.pcrelLo12I 0, Elf.rela 0 2 R.pcrelHi20 0]
    [Elf.sym 0 0, Elf.sym 0 1, Elf.sym 8 1] []

/-- The lower half first: one order is written, the other refused, for want of a HI20 that is there. -/
theorem order_matters :
    Reordered 32 (.ofSections llaProgram) (Host.ofSections swappedProgram).objcopy (Elf.object llaProgram)
      (Elf.object swappedProgram) ∧
    Returns (load (.ofSections llaProgram) (Elf.object llaProgram))
      (fun obj : Obj 32 => NoOverlap (relocs (Elf.object llaProgram) obj)) ∧
    (∃ out, mkflt 32 (.ofSections llaProgram) 8192 (Elf.object llaProgram) = .ok out) ∧
    mkflt 32 (.ofSections swappedProgram) 8192 (Elf.object swappedProgram) =
      die "R_RISCV_PCREL_LO12_I at 0x4 refers to 0x0, which is not a PCREL_HI20 site" := by
  refine ⟨by decide +kernel, by decide +kernel, ?_, by decide +kernel⟩
  obtain ⟨out, hout, -⟩ := exists_ok (x := mkflt 32 (.ofSections llaProgram) 8192 (Elf.object llaProgram))
    (p := fun _ => true) (by decide +kernel)
  exact ⟨out, hout⟩

/-- A RELA section that is part of the image: its two entries patch a section that is not placed. -/
def placedEntries (swap : Bool) : List Elf.Sec :=
  let entries := [Elf.rela 0 0 R.none 0, Elf.rela 4 0 R.none 0]
  Elf.program [0x13, 0, 0, 0] [] [Elf.sym 0 0]
    [{ name := [0x61], type := 4, flags := 2, data := (if swap then entries.reverse else entries).flatten }]

/-- Both orders are written, each with its own entries in it. -/
example :
    Reordered 32 (.ofSections (placedEntries false)) (Host.ofSections (placedEntries true)).objcopy
      (Elf.object (placedEntries false)) (Elf.object (placedEntries true)) ∧
    (mkflt 32 (.ofSections (placedEntries true)) 8192 (Elf.object (placedEntries true))).toOption ≠
      (mkflt 32 (.ofSections (placedEntries false)) 8192 (Elf.object (placedEntries false))).toOption := by
  decide +kernel

end P4Linux.Mkflt
