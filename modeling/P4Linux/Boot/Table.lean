import P4Linux.Boot.Agree

/-!
# The table that flashmap.py writes, read back

* `entryOf_entry` -- an entry that was packed decodes to its partition;
* `walk_table` -- a walk of the written table shows a visitor the partitions in order, as many of them
  as `part_walk` has rounds, and ends without an error;
* `readsBack_iff` -- the whole list is read back if and only if it has at most `partMaxEntries`
  partitions: nothing in flashmap.py asks for that.
-/

namespace P4Linux.Boot

open Proc Flashmap

/-! ## 1. One entry -/

/-- A partition as it is on flash. -/
def partEntry (p : Part) : PartEntry where
  magic := partMagic
  type := UInt8.ofNat p.ptype.toNat
  subtype := UInt8.ofNat p.psub.toNat
  offset := p.off.toNat
  size := p.size.toNat
  label := ljust p.name
  flags := 0

theorem length_ljust {label : List UInt8} (h : label.length ≤ 16) : (ljust label).length = 16 := by
  rw [ljust, List.length_append, List.length_replicate]
  omega

theorem packs_lt {n : Nat} {k : Int} (h : packs n k) : k.toNat < 256 ^ n := by
  obtain ⟨h0, hlt⟩ := h
  refine (Int.toNat_lt h0).mpr ?_
  rw [Int.natCast_pow]
  exact hlt

/-- **An entry decodes to its partition.** -/
theorem entryOf_entry {p : Part} {e : List UInt8} (h : entry p = .ok e) :
    e.length = 32 ∧ entryOf e = partEntry p := by
  obtain ⟨hname, ⟨ht, hs, ho, hz⟩, rfl⟩ := entry_ok.mp h
  have hlabel := length_ljust hname
  have htlt : p.ptype.toNat < 256 := packs_lt ht
  have hslt : p.psub.toNat < 256 := packs_lt hs
  have htype : leBytes 1 p.ptype.toNat = [UInt8.ofNat p.ptype.toNat] := by
    show [UInt8.ofNat (p.ptype.toNat % 256)] = _
    rw [Nat.mod_eq_of_lt htlt]
  have hsub : leBytes 1 p.psub.toNat = [UInt8.ofNat p.psub.toNat] := by
    show [UInt8.ofNat (p.psub.toNat % 256)] = _
    rw [Nat.mod_eq_of_lt hslt]
  have hoff := le_leBytes (packs_lt ho)
  have hsize := le_leBytes (packs_lt hz)
  obtain ⟨off, hoffl⟩ : ∃ off, leBytes 4 p.off.toNat = off := ⟨_, rfl⟩
  obtain ⟨size, hsizel⟩ : ∃ size, leBytes 4 p.size.toNat = size := ⟨_, rfl⟩
  have hoffn : off.length = 4 := hoffl ▸ length_leBytes 4 _
  have hsizen : size.length = 4 := hsizel ▸ length_leBytes 4 _
  rw [htype, hsub, hoffl, hsizel]
  rw [hoffl] at hoff
  rw [hsizel] at hsize
  have hentry : magic ++ [UInt8.ofNat p.ptype.toNat] ++ [UInt8.ofNat p.psub.toNat] ++ off ++ size ++
      ljust p.name ++ leBytes 4 0 = 0xAA :: 0x50 :: UInt8.ofNat p.ptype.toNat ::
        UInt8.ofNat p.psub.toNat :: (off ++ (size ++ (ljust p.name ++ leBytes 4 0))) := by
    simp only [magic, List.append_assoc, List.cons_append, List.nil_append]
  rw [hentry]
  obtain ⟨flags, hflags⟩ : ∃ flags, leBytes 4 0 = flags := ⟨_, rfl⟩
  rw [hflags]
  constructor
  · have hflagsn : flags.length = 4 := hflags ▸ rfl
    simp only [List.length_cons, List.length_append, hlabel, hoffn, hsizen, hflagsn]
  · have h8 : (off ++ (size ++ (ljust p.name ++ flags))).drop 4 = size ++ (ljust p.name ++ flags) :=
      List.drop_left' hoffn
    have h12 : (off ++ (size ++ (ljust p.name ++ flags))).drop 8 = ljust p.name ++ flags := by
      rw [show 8 = 4 + 4 from rfl, ← List.drop_drop, h8, List.drop_left' hsizen]
    have h28 : (off ++ (size ++ (ljust p.name ++ flags))).drop 24 = flags := by
      rw [show 24 = 8 + 16 from rfl, ← List.drop_drop, h12, List.drop_left' hlabel]
    unfold entryOf partEntry
    rw [PartEntry.mk.injEq]
    refine ⟨?_, rfl, rfl, ?_, ?_, ?_, ?_⟩
    · show le [0xAA, 0x50] = partMagic
      decide
    · show le ((off ++ (size ++ (ljust p.name ++ flags))).take 4) = _
      rw [List.take_left' hoffn, hoff]
    · show le (((off ++ (size ++ (ljust p.name ++ flags))).drop 4).take 4) = _
      rw [h8, List.take_left' hsizen, hsize]
    · show ((off ++ (size ++ (ljust p.name ++ flags))).drop 8).take 16 = _
      rw [h12, List.take_left' hlabel]
    · show le (((off ++ (size ++ (ljust p.name ++ flags))).drop 24).take 4) = _
      rw [h28, ← hflags]
      decide

/-! ## 2. The walk -/

/-- What a visitor comes to on a list of entries; it may say stop. -/
def feed {τ : Type} (visit : PartEntry → τ → Bool × τ) : List PartEntry → τ → τ
  | [], ctx => ctx
  | e :: es, ctx => match visit e ctx with
    | (true, ctx) => feed visit es ctx
    | (false, ctx) => ctx

section

variable {ρ τ : Type} {rom : Rom ρ} {flash : Nat → UInt8} (hst : rom.Stable flash)
  {visit : PartEntry → τ → Bool × τ}

include hst

/-- The next 32 bytes of the table. -/
theorem walk_slot {n i : Nat} {b : Board ρ} {e l : List UInt8} (he : e.length = 32)
    (hin : partTableOffset + (i + (n + 1)) * 32 ≤ b.chipSize)
    (h : bytes flash (partTableOffset + i * 32) ((n + 1) * 32) = (e ++ l).take ((n + 1) * 32)) :
    (∃ t, Ends (flashRead rom (partTableOffset + i * 32) sram 32) b (true, e) t ∧
      t.chipSize = b.chipSize) ∧
    bytes flash (partTableOffset + (i + 1) * 32) (n * 32) = l.take (n * 32) := by
  rw [show (n + 1) * 32 = 32 + n * 32 by omega, bytes_append, List.take_append,
    List.take_of_length_le (by omega), he, Nat.add_sub_cancel_left] at h
  obtain ⟨h₁, h₂⟩ := List.append_inj h (by rw [length_bytes, he])
  constructor
  · obtain ⟨t, ht⟩ : ∃ t, Ends (flashRead rom (partTableOffset + i * 32) sram 32) b
        (true, bytes flash (partTableOffset + i * 32) 32) t :=
      flashRead_stable hst (by unfold partTableOffset; omega) rfl rfl (by omega)
    have hchip : t.chipSize = b.chipSize := congrArg Prod.snd ((leaves_flashRead _ _ _).ends ht)
    rw [h₁] at ht
    exact ⟨t, ht, hchip⟩
  · rw [show partTableOffset + (i + 1) * 32 = partTableOffset + i * 32 + 32 by omega]
    exact h₂

/-- Erased flash ends the table. -/
theorem walk_blank {n i k : Nat} {ctx : τ} {b : Board ρ}
    (hin : partTableOffset + (i + n) * 32 ≤ b.chipSize)
    (h : bytes flash (partTableOffset + i * 32) (n * 32) = (List.replicate k 0xFF).take (n * 32)) :
    ∃ b', Ends (walkFrom rom visit n i ctx) b (true, ctx) b' := by
  cases n with
  | zero => exact ⟨b, ends_pure.mpr ⟨rfl, rfl⟩⟩
  | succ n =>
    have hk : (n + 1) * 32 ≤ k := by
      have hlen := congrArg List.length h
      rw [length_bytes, List.length_take, List.length_replicate] at hlen
      omega
    rw [show k = 32 + (k - 32) by omega, ← List.replicate_append_replicate] at h
    obtain ⟨⟨t, ht, -⟩, -⟩ := walk_slot hst List.length_replicate hin h
    refine ⟨t, ends_bind.mpr ⟨_, t, ht, ?_⟩⟩
    exact ends_pure.mpr ⟨rfl, rfl⟩

/-- The MD5 entry is skipped. -/
theorem walk_md5 {n i k : Nat} {ctx : τ} {b : Board ρ} {digest : List UInt8} (hd : digest.length = 16)
    (hin : partTableOffset + (i + n) * 32 ≤ b.chipSize)
    (h : bytes flash (partTableOffset + i * 32) (n * 32) =
      (magicMd5 ++ List.replicate 14 0xFF ++ digest ++ List.replicate k 0xFF).take (n * 32)) :
    ∃ b', Ends (walkFrom rom visit n i ctx) b (true, ctx) b' := by
  cases n with
  | zero => exact ⟨b, ends_pure.mpr ⟨rfl, rfl⟩⟩
  | succ n =>
    have hlen : (magicMd5 ++ List.replicate 14 0xFF ++ digest).length = 32 := by
      rw [List.length_append, hd]
      rfl
    obtain ⟨⟨t, ht, hchip⟩, hrest⟩ := walk_slot hst hlen hin h
    obtain ⟨b', hb'⟩ : ∃ b', Ends (walkFrom rom visit n (i + 1) ctx) t (true, ctx) b' :=
      walk_blank hst (by omega) hrest
    exact ⟨b', ends_bind.mpr ⟨_, t, ht, hb'⟩⟩

/-- Induction on the partitions: each takes one round, until there is none left. -/
theorem walk_parts {parts : List Part} {entries : List (List UInt8)}
    (hentries : List.Forall₂ (fun p e => entry p = .ok e) parts entries) {n i k : Nat} {ctx : τ}
    {b : Board ρ} {digest : List UInt8} (hd : digest.length = 16)
    (hin : partTableOffset + (i + n) * 32 ≤ b.chipSize)
    (h : bytes flash (partTableOffset + i * 32) (n * 32) = (entries.flatten ++
      (magicMd5 ++ List.replicate 14 0xFF ++ digest ++ List.replicate k 0xFF)).take (n * 32)) :
    ∃ b', Ends (walkFrom rom visit n i ctx) b (true, feed visit ((parts.map partEntry).take n) ctx) b' := by
  induction hentries generalizing n i ctx b with
  | nil =>
    rw [List.map_nil, List.take_nil]
    exact walk_md5 hst hd hin h
  | @cons p e parts entries he _ ih =>
    cases n with
    | zero => exact ⟨b, ends_pure.mpr ⟨rfl, rfl⟩⟩
    | succ n =>
      obtain ⟨hlen, hentry⟩ := entryOf_entry he
      rw [List.flatten_cons, List.append_assoc] at h
      obtain ⟨⟨t, ht, hchip⟩, hrest⟩ := walk_slot hst hlen hin h
      have hrun : ∃ b', Ends (match visit (partEntry p) ctx with
          | (true, ctx) => walkFrom rom visit n (i + 1) ctx
          | (false, ctx) => pure (true, ctx)) t
          (true, feed visit (partEntry p :: (parts.map partEntry).take n) ctx) b' := by
        unfold feed
        rcases visit (partEntry p) ctx with ⟨_ | _, ctx'⟩
        · exact ⟨t, ends_pure.mpr ⟨rfl, rfl⟩⟩
        · exact ih (by omega) hrest
      rw [← hentry] at hrun
      have hmagic : (entryOf e).magic = partMagic := by
        rw [hentry]
        rfl
      obtain ⟨b', hb'⟩ := hrun
      refine ⟨b', ends_bind.mpr ⟨_, t, ht, ?_⟩⟩
      dsimp only
      rw [if_neg (by decide), if_neg (by rw [hmagic]; decide), if_neg (by rw [hmagic]; decide)]
      rw [List.map_cons, List.take_succ_cons, ← hentry]
      exact hb'

/-- The blob at `partTableOffset`, and erased flash behind it up to the end of the table. -/
def Tabled (flash : Nat → UInt8) (blob : List UInt8) : Prop :=
  ∀ i < partTableLen, flash (partTableOffset + i) = blob.getD i 0xFF

omit hst in
theorem bytes_of_tabled {blob : List UInt8} (h : Tabled flash blob) :
    bytes flash partTableOffset partTableLen =
      (blob ++ List.replicate partTableLen 0xFF).take partTableLen := by
  refine List.ext_getElem ?_ fun i h₁ h₂ => ?_
  · rw [length_bytes, List.length_take, List.length_append, List.length_replicate]
    omega
  · have hi : i < partTableLen := by rwa [length_bytes] at h₁
    rw [getElem_bytes, h i hi, List.getElem_take, List.getD_eq_getElem?_getD, List.getElem_append]
    split
    · rename_i hlt
      rw [List.getElem?_eq_getElem hlt, Option.getD_some]
    · rename_i hlt
      rw [List.getElem?_eq_none (Nat.le_of_not_lt hlt), Option.getD_none, List.getElem_replicate]

/-- **A walk of the written table** shows the partitions in order, as far as its rounds go. -/
theorem walk_table {md5 : List UInt8 → Vector UInt8 16} {parts : List Part} {blob : List UInt8}
    (hblob : cmdBinary md5 parts = .ok blob) (hf : Tabled flash blob) (ctx : τ) {b : Board ρ}
    (hchip : b.chipSize = flashSize) : ∃ b', Ends (partWalk rom visit ctx) b
      (true, feed visit ((parts.map partEntry).take partMaxEntries) ctx) b' := by
  unfold cmdBinary at hblob
  simp only [bind_ok, pure_ok] at hblob
  obtain ⟨_, -, entries, hentries, rfl⟩ := hblob
  have hdigest : (md5 entries.flatten).toList.length = 16 := Vector.length_toList
  have h := bytes_of_tabled hf
  rw [List.append_assoc] at h
  refine walk_parts hst (mapM_ok.mp hentries) hdigest ?_ h
  rw [hchip]
  decide

end

/-! ## 3. What is read back -/

section

variable {ρ : Type} {rom : Rom ρ} {flash : Nat → UInt8}

structure ReadsBack (rom : Rom ρ) (parts : List Part) (b : Board ρ) : Prop where
  /-- `part_walk` shows the partitions of the list, in order, and ends without an error. -/
  visits : ∃ b', Ends (partWalk rom (fun e seen => (true, seen ++ [e])) []) b
    (true, parts.map partEntry) b'
  /-- `p4_part_find` returns the first partition of that type and subtype. -/
  finds : ∀ before p after, parts = before ++ p :: after →
    (∀ q ∈ before, ¬ (q.ptype = p.ptype ∧ q.psub = p.psub)) →
    ∃ b', Ends (partFind rom (UInt8.ofNat p.ptype.toNat) (UInt8.ofNat p.psub.toNat)) b
      (some ⟨p.off.toNat, p.size.toNat, ljust p.name ++ [0]⟩) b'

theorem feed_record (es seen : List PartEntry) :
    feed (fun e seen => (true, seen ++ [e])) es seen = seen ++ es := by
  induction es generalizing seen with
  | nil => exact (List.append_nil seen).symm
  | cons e es ih =>
    show feed _ es (seen ++ [e]) = _
    rw [ih, List.append_assoc]
    rfl

theorem feed_find {type subtype : UInt8} {before after : List PartEntry} {e : PartEntry}
    (hbefore : ∀ d ∈ before, d.type ≠ type ∨ d.subtype ≠ subtype)
    (he : e.type = type ∧ e.subtype = subtype) :
    feed (findVisit type subtype) (before ++ e :: after) none =
      some ⟨e.offset, e.size, e.label ++ [0]⟩ := by
  induction before with
  | nil =>
    have hvisit : findVisit type subtype e none = (false, some ⟨e.offset, e.size, e.label ++ [0]⟩) := by
      unfold findVisit
      rw [if_neg (by rintro (h | h); exacts [h he.1, h he.2])]
    rw [List.nil_append, feed, hvisit]
  | cons d before ih =>
    have hvisit : findVisit type subtype d none = (true, none) := by
      unfold findVisit
      rw [if_pos (hbefore d List.mem_cons_self)]
    rw [List.cons_append, feed, hvisit]
    exact ih fun d hd => hbefore d (List.mem_cons_of_mem _ hd)

theorem ofNat_toNat_inj {j k : Int} (hj : packs 1 j) (hk : packs 1 k)
    (h : UInt8.ofNat j.toNat = UInt8.ofNat k.toNat) : j = k := by
  obtain ⟨hj0, hj⟩ := hj
  obtain ⟨hk0, hk⟩ := hk
  have hn := congrArg UInt8.toNat h
  rw [UInt8.toNat_ofNat', UInt8.toNat_ofNat'] at hn
  omega

/-- Types of two partitions that were packed are the same on flash only if they are the same. -/
theorem visited (hst : rom.Stable flash) {md5 : List UInt8 → Vector UInt8 16} {parts : List Part}
    {blob : List UInt8} (hblob : cmdBinary md5 parts = .ok blob) (hf : Tabled flash blob) {b : Board ρ}
    (hchip : b.chipSize = flashSize) :
    ∃ b', Ends (partWalk rom (fun e seen => (true, seen ++ [e])) []) b
      (true, (parts.map partEntry).take partMaxEntries) b' := by
  have h : ∃ b', Ends (partWalk rom (fun e seen => (true, seen ++ [e])) []) b
      (true, feed (fun e seen => (true, seen ++ [e])) ((parts.map partEntry).take partMaxEntries) []) b' :=
    walk_table hst hblob hf [] hchip
  rw [feed_record] at h
  exact h

/-- A table longer than the walk is not read back. -/
theorem readsBack_imp (hst : rom.Stable flash) {md5 : List UInt8 → Vector UInt8 16} {parts : List Part}
    {blob : List UInt8} (hblob : cmdBinary md5 parts = .ok blob) (hf : Tabled flash blob) {b : Board ρ}
    (hchip : b.chipSize = flashSize) (h : ReadsBack rom parts b) : parts.length ≤ partMaxEntries := by
  obtain ⟨b₁, h₁⟩ := visited hst hblob hf hchip
  obtain ⟨b₂, h₂⟩ := h.visits
  have hlen := congrArg (fun r => r.2.length) (h₁.unique h₂).1
  dsimp only at hlen
  rw [List.length_take, List.length_map] at hlen
  omega

theorem readsBack_of (hst : rom.Stable flash) {md5 : List UInt8 → Vector UInt8 16} {parts : List Part}
    {blob : List UInt8} (hblob : cmdBinary md5 parts = .ok blob) (hf : Tabled flash blob) {b : Board ρ}
    (hchip : b.chipSize = flashSize) (h : parts.length ≤ partMaxEntries) : ReadsBack rom parts b := by
  have hall : (parts.map partEntry).take partMaxEntries = parts.map partEntry :=
    List.take_of_length_le (by rwa [List.length_map])
  constructor
  · have hv := visited hst hblob hf hchip
    rw [hall] at hv
    exact hv
  · intro before p after hparts hfirst
    have hp : p ∈ parts := by
      rw [hparts]
      exact List.mem_append_right _ List.mem_cons_self
    obtain ⟨ht, hs, -, -⟩ := packs_of_binary hblob hp
    obtain ⟨visit, hvisit⟩ : ∃ visit,
        visit = findVisit (UInt8.ofNat p.ptype.toNat) (UInt8.ofNat p.psub.toNat) := ⟨_, rfl⟩
    obtain ⟨b', hw⟩ : ∃ b', Ends (partWalk rom visit none) b
        (true, feed visit ((parts.map partEntry).take partMaxEntries) none) b' :=
      walk_table hst hblob hf none hchip
    have hfound : feed (findVisit (UInt8.ofNat p.ptype.toNat) (UInt8.ofNat p.psub.toNat))
        (before.map partEntry ++ partEntry p :: after.map partEntry) none =
        some ⟨p.off.toNat, p.size.toNat, ljust p.name ++ [0]⟩ := by
      refine feed_find ?_ ⟨rfl, rfl⟩
      intro d hd
      obtain ⟨q, hq, rfl⟩ := List.mem_map.mp hd
      obtain ⟨hqt, hqs, -, -⟩ := packs_of_binary hblob (hparts ▸ List.mem_append_left _ hq)
      by_contra hsame
      rw [not_or, not_ne_iff, not_ne_iff] at hsame
      exact hfirst q hq ⟨ofNat_toNat_inj hqt ht hsame.1, ofNat_toNat_inj hqs hs hsame.2⟩
    rw [hvisit, hall, hparts, List.map_append, List.map_cons, hfound] at hw
    exact ⟨b', ends_bind.mpr ⟨_, b', hw, ends_pure.mpr ⟨rfl, rfl⟩⟩⟩

/-- **What flashmap.py writes is read back** if and only if it has no more partitions than `part_walk`
    has rounds. -/
theorem readsBack_iff (hst : rom.Stable flash) {md5 : List UInt8 → Vector UInt8 16} {parts : List Part}
    {blob : List UInt8} (hblob : cmdBinary md5 parts = .ok blob) (hf : Tabled flash blob) {b : Board ρ}
    (hchip : b.chipSize = flashSize) : ReadsBack rom parts b ↔ parts.length ≤ partMaxEntries :=
  ⟨readsBack_imp hst hblob hf hchip, readsBack_of hst hblob hf hchip⟩

end

/-! ## 4. Two tables -/

/-- The partitions of `partitions.csv`. -/
def boardParts : List Part :=
  [⟨[107, 101, 114, 110, 101, 108], 0x40, 0, 0x20000, 0xC00000⟩,
    ⟨[100, 116, 98], 0x41, 0, 0xC20000, 0x10000⟩]

/-- The digest of their two entries. -/
def boardDigest : Vector UInt8 16 :=
  #v[88, 238, 22, 50, 194, 96, 240, 126, 130, 2, 50, 40, 35, 126, 1, 209]

/-- Flash with a table and nothing else. -/
def tableFlash (blob : List UInt8) (a : Nat) : UInt8 := blob.getD (a - partTableOffset) 0xFF

theorem tabled_tableFlash (blob : List UInt8) : Tabled (tableFlash blob) blob := by
  intro i _
  unfold tableFlash
  rw [Nat.add_sub_cancel_left]

theorem readsBack_board : ∃ blob, cmdBinary (fun _ => boardDigest) boardParts = .ok blob ∧
    ReadsBack (flashRom (tableFlash blob)) boardParts freshBoard := by
  obtain ⟨blob, hblob, -⟩ : ∃ blob, cmdBinary (fun _ => boardDigest) boardParts = .ok blob ∧
      true = true := exists_ok (p := fun _ => true) (by decide +kernel)
  exact ⟨blob, hblob,
    (readsBack_iff (flashRom_stable _) hblob (tabled_tableFlash blob) rfl).mpr (by decide)⟩

/-- 129 partitions of one sector each. -/
def manyParts : List Part :=
  (List.range 129).map fun i : Nat => ⟨[112], 0x40, 0, 0x9000 + 0x1000 * (i : Int), 0x1000⟩

/-- `cmd_binary` writes them, and the last is never seen. -/
theorem not_readsBack_many : ∃ blob, cmdBinary (fun _ => boardDigest) manyParts = .ok blob ∧
    Tabled (tableFlash blob) blob ∧ ¬ ReadsBack (flashRom (tableFlash blob)) manyParts freshBoard := by
  obtain ⟨blob, hblob, -⟩ : ∃ blob, cmdBinary (fun _ => boardDigest) manyParts = .ok blob ∧
      true = true := exists_ok (p := fun _ => true) (by decide +kernel)
  refine ⟨blob, hblob, tabled_tableFlash blob, fun h => ?_⟩
  have hle := readsBack_imp (flashRom_stable _) hblob (tabled_tableFlash blob) rfl h
  unfold manyParts at hle
  rw [List.length_map, List.length_range] at hle
  exact absurd hle (by decide)

end P4Linux.Boot
