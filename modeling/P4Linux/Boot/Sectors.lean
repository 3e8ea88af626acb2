import P4Linux.Boot.Flashmap

/-!
# Partitions do not share sectors

`check` of `bootloader/flashmap.py` compares neighbours after sorting by offset. That is enough because
`struct.pack` refuses a size below zero.

* `ordered_apart` -- neighbours that do not overlap are **pairwise apart**;
* `binary_apart` -- so are the partitions of a table that was written, in whatever order they were listed, and
  rewriting the region of one leaves the others, the table and the bootloader as they are.
-/

namespace P4Linux.Flashmap

/-- The byte `a` of flash is in the region of `p`. -/
def Part.Covers (p : Part) (a : Int) : Prop := p.off ≤ a ∧ a < p.off + p.size

def Apart (p q : Part) : Prop := ∀ a, ¬(p.Covers a ∧ q.Covers a)

theorem Apart.symm {p q : Part} (h : Apart p q) : Apart q p := fun a ha => h a ha.symm

/-! ## 1. From neighbours to all pairs -/

theorem checkOrdered_cons {a b : Part} {rest : List Part} : checkOrdered (a :: b :: rest) = .ok () ↔
    a.off + a.size ≤ b.off ∧ checkOrdered (b :: rest) = .ok () := by
  rw [checkOrdered]
  split
  · rename_i h
    simp [h]
  · rename_i h
    simp [not_lt.mp h]

/-- Where the sizes are not negative, what comes later starts at or above what comes earlier ends. -/
theorem ordered_apart {parts : List Part} (hsize : ∀ p ∈ parts, 0 ≤ p.size)
    (h : checkOrdered parts = .ok ()) : parts.Pairwise fun p q => p.off + p.size ≤ q.off := by
  induction parts with
  | nil => exact .nil
  | cons a rest ih =>
    have hrest : ∀ p ∈ rest, 0 ≤ p.size := fun p hp => hsize p (List.mem_cons_of_mem _ hp)
    cases rest with
    | nil => exact List.pairwise_singleton _ _
    | cons b rest =>
      obtain ⟨hab, ho⟩ := checkOrdered_cons.mp h
      have hpair := ih hrest ho
      refine List.pairwise_cons.mpr ⟨fun q hq => ?_, hpair⟩
      rcases List.mem_cons.mp hq with rfl | hq
      · exact hab
      · have hb := hrest b List.mem_cons_self
        have hbq := (List.pairwise_cons.mp hpair).1 q hq
        omega

/-! ## 2. A table that was written -/

section

variable {md5 : List UInt8 → Vector UInt8 16} {parts : List Part} {blob : List UInt8}

theorem binary_sectors (h : cmdBinary md5 parts = .ok blob) : ∀ p ∈ parts,
    0x9000 ≤ p.off ∧ p.off % 0x1000 = 0 ∧ p.size % 0x1000 = 0 ∧ 0 ≤ p.size := by
  intro p hp
  have hsize := (packs_of_binary h hp).2.2.2.1
  obtain ⟨_, hcheck, -⟩ := bind_ok.mp h
  obtain ⟨h1, h2, h3⟩ := checkPart_ok.mp ((check_ok.mp hcheck).1 p hp)
  exact ⟨h1, h2, h3, hsize⟩

theorem binary_pairwise (h : cmdBinary md5 parts = .ok blob) : parts.Pairwise Apart := by
  have hsize : ∀ p ∈ parts, 0 ≤ p.size := fun p hp => (binary_sectors h p hp).2.2.2
  obtain ⟨_, hcheck, -⟩ := bind_ok.mp h
  have hperm := List.perm_insertionSort (fun a b : Part => a.off ≤ b.off) parts
  have hordered := ordered_apart (fun p hp => hsize p (hperm.mem_iff.mp hp)) (check_ok.mp hcheck).2
  refine hperm.pairwise (hordered.imp fun hpq a ⟨hp, hq⟩ => ?_) Apart.symm
  have hpa := hp.2
  have hqa := hq.1
  omega

/-! ## 3. Rewriting a region -/

/-- `a` and `b` are in one sector of 4 KB, which is what is erased at a time. -/
def SameSector (a b : Int) : Prop := a / 0x1000 = b / 0x1000

/-- What erasing and writing the region may change: the sectors that it meets. -/
def Rewritten (off size : Int) (flash flash' : Int → UInt8) : Prop :=
  ∀ a, (∀ b, off ≤ b → b < off + size → ¬SameSector a b) → flash' a = flash a

theorem lookup_lastNamed {name : List UInt8} {p : Part} (h : lookup parts name = some p) :
    LastNamed parts name p := by
  by_cases hin : ∃ q ∈ parts, q.name = name
  · obtain ⟨q, hq⟩ := exists_lastNamed hin
    obtain rfl := Option.some.inj ((lookup_eq_some hq).symm.trans h)
    exact hq
  · rw [lookup_eq_none fun r hr he => hin ⟨r, hr, he⟩] at h
    cases h

/-- A sector that a region of whole sectors meets is inside it. -/
theorem Part.covers_of_sameSector {p : Part} (hoff : p.off % 0x1000 = 0) (hsize : p.size % 0x1000 = 0)
    {a b : Int} (hb : p.Covers b) (h : SameSector a b) : p.Covers a := by
  unfold Part.Covers at *
  unfold SameSector at h
  omega

/-- **No layout that was written overlaps**: not only neighbours are apart, and the region that `cmd_region` gives
for a partition can be rewritten without a change to anything else. -/
theorem binary_apart (h : cmdBinary md5 parts = .ok blob) :
    (∀ p ∈ parts, 0x9000 ≤ p.off ∧ p.off % 0x1000 = 0 ∧ p.size % 0x1000 = 0) ∧ parts.Pairwise Apart ∧
      ∀ name off size, cmdRegion parts name = .ok (off, size) →
        ∃ before p after, parts = before ++ p :: after ∧ p.name = name ∧ p.off = off ∧ p.size = size ∧
          ∀ flash flash', Rewritten off size flash flash' →
            (∀ a, a < 0x9000 → flash' a = flash a) ∧
            ∀ q ∈ before ++ after, ∀ a, q.Covers a → flash' a = flash a := by
  have hsectors := binary_sectors h
  have hpair := binary_pairwise h
  refine ⟨fun p hp => ?_, hpair, fun name off size hregion => ?_⟩
  · obtain ⟨h1, h2, h3, -⟩ := hsectors p hp
    exact ⟨h1, h2, h3⟩
  · unfold cmdRegion at hregion
    split at hregion
    · cases hregion
    · rename_i p hlookup
      cases hregion
      obtain ⟨before, after, rfl, hname, -⟩ := lookup_lastNamed hlookup
      refine ⟨before, p, after, rfl, hname, rfl, rfl, fun flash flash' hrew => ?_⟩
      obtain ⟨hlow, hoff, hsize, -⟩ := hsectors p (List.mem_append_right _ List.mem_cons_self)
      refine ⟨fun a ha => hrew a fun b hb _ hs => ?_, fun q hq a hqa => hrew a fun b hb hb' hs => ?_⟩
      · unfold SameSector at hs
        omega
      · have hpa := Part.covers_of_sameSector hoff hsize ⟨hb, hb'⟩ hs
        have hcons := (List.pairwise_middle Apart.symm).mp hpair
        exact (List.pairwise_cons.mp hcons).1 q hq a ⟨hpa, hqa⟩

end

/-- Three partitions from the last to the first, an empty one between two that touch. -/
def scattered : List Part := [⟨[99], 0x42, 0, 0x22000, 0⟩, ⟨[98], 0x41, 0, 0x22000, 0x1000⟩,
  ⟨[97], 0x40, 0, 0x20000, 0x2000⟩]

theorem binary_apart_scattered : scattered.Pairwise Apart ∧ ∀ flash flash' : Int → UInt8,
    Rewritten 0x20000 0x2000 flash flash' → flash' 0x22000 = flash 0x22000 := by
  obtain ⟨blob, hblob, -⟩ : ∃ blob, cmdBinary (fun _ => Vector.replicate 16 0) scattered = .ok blob ∧
      true = true := exists_ok (p := fun _ => true) (by decide +kernel)
  obtain ⟨-, hpair, hregion⟩ := binary_apart hblob
  refine ⟨hpair, fun flash flash' hrew => ?_⟩
  obtain ⟨before, p, after, hparts, hname, -, -, hkeep⟩ := hregion [97] 0x20000 0x2000 (by decide +kernel)
  have hmem : (⟨[98], 0x41, 0, 0x22000, 0x1000⟩ : Part) ∈ before ++ after := by
    have hin : (⟨[98], 0x41, 0, 0x22000, 0x1000⟩ : Part) ∈ before ++ p :: after := by
      rw [← hparts]
      decide
    rcases List.mem_append.mp hin with hin | hin
    · exact List.mem_append_left _ hin
    · rcases List.mem_cons.mp hin with rfl | hin
      · exact absurd hname (by decide)
      · exact List.mem_append_right _ hin
  exact (hkeep flash flash' hrew).2 _ hmem 0x22000 ⟨by decide, by decide⟩

end P4Linux.Flashmap
