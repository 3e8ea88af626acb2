import P4Linux.Mkflt.Layout

/-!
# What a run that came through has done

`mkflt` is a chain of steps each of which may abort. Here a successful run is taken apart once.

* `load_ok`, `mkflt_ok` -- its stages;
* `small_of_load`, `fits_64` -- at 64 bits no object that was read has sizes that could wrap;
* `blitAll_bytes`, `blitAll_other`, `blitAll_zero` -- the image before relocation: a section's bytes
  where it was placed, zeroes elsewhere;
* `imageWord_input` -- a word of it is the word objcopy gave for the section;
* `written`, `blob_map` -- how many keys the chunked writer comes to, and that it writes them in order;
* `fileByte_of_blob`, `fileWord_of_blob` -- the bytes and words of the file after the header.
-/

namespace P4Linux.Mkflt

open Lua

variable {w : Nat}

/-! ## 1. The stages -/

theorem readAll_ok {b r : List UInt8} (h : readAll w b = .ok r) : r = b ∧ b.length ≤ maxString w := by
  unfold readAll at h
  split at h
  · exact ⟨(Except.ok.inj h).symm, ‹_›⟩
  · cases h

/-- A check that was passed. -/
theorem dieIf_ok {c : Prop} [Decidable c] {text : String} {u : Unit} : dieIf c text = .ok u ↔ ¬ c := by
  unfold dieIf
  split
  · rename_i hc
    constructor
    · intro h
      cases h
    · intro hn
      exact absurd hc hn
  · rename_i hc
    exact ⟨fun _ => hc, fun _ => rfl⟩

theorem load_ok {host : Host} {d : List UInt8} {obj : Obj w} (h : load host d = .ok obj) :
    d.length ≤ maxString w ∧ ∃ e : Header w, readHeader host d = .ok e ∧
      readSections d e = .ok obj.sec ∧ obj.lay = layout obj.sec ∧
      blitAll host obj.sec obj.lay = .ok obj.image ∧
      readSymbols host d obj.sec obj.lay = .ok obj.syms := by
  simp only [load, bind_ok, pure_ok] at h
  obtain ⟨d', hd, e, he, sec, hsec, -, -, m, hm, syms, hsyms, rfl⟩ := h
  obtain ⟨rfl, hlen⟩ := readAll_ok hd
  exact ⟨hlen, e, he, hsec, rfl, hm, hsyms⟩

theorem mkflt_ok {host : Host} {stack : BitVec w} {d out : List UInt8}
    (h : mkflt w host stack d = .ok out) : ∃ (obj : Obj w) (st : LinkState w) (body : List UInt8),
      load host d = .ok obj ∧
      relocLoop host d obj.syms (relocSites obj.sec obj.lay) obj.image = .ok st ∧
      blob st.image obj.lay.imageLen = .ok body ∧
      out = header obj.lay.imageLen (entryPoint obj.syms) stack ++ body := by
  simp only [mkflt, bind_ok, pure_ok] at h
  obtain ⟨-, -, obj, hobj, st, hst, body, hbody, -, -, -, -, rfl⟩ := h
  exact ⟨obj, st, body, hobj, hst, hbody, rfl⟩

/-- A run that comes through, with what it has loaded: a check of both evaluates `load` once. -/
theorem exists_linked (host : Host) (stack : BitVec w) (d : List UInt8) {p : List UInt8 → Obj w → Bool}
    (h : ((mkflt w host stack d).toOption.any fun out => (load host d).toOption.any (p out)) = true) :
    ∃ (obj : Obj w) (out : List UInt8), mkflt w host stack d = .ok out ∧ load host d = .ok obj ∧
      p out obj = true := by
  obtain ⟨out, hout, h⟩ := exists_ok h
  obtain ⟨obj, hobj, hp⟩ := exists_ok h
  exact ⟨obj, out, hout, hobj, hp⟩

theorem index_of_readSections {d : List UInt8} {e : Header w} {sec : List (Section w)}
    (h : readSections d e = .ok sec) : sec.map (·.index) = List.range e.shnum.toNat := by
  simp only [readSections, bind_ok] at h
  obtain ⟨shstr, -, h⟩ := h
  rw [map_of_mapM_ok (k := id) (fun n _ s hs => ?_) h, List.map_id]
  simp only [readSection, bind_ok, pure_ok] at hs
  obtain ⟨_, -, _, -, _, -, _, -, _, -, _, -, _, -, _, -, _, -, rfl⟩ := hs
  rfl

theorem nodup_of_load {host : Host} {d : List UInt8} {obj : Obj w} (h : load host d = .ok obj) :
    (obj.sec.map (·.index)).Nodup := by
  obtain ⟨-, e, -, hs, -⟩ := load_ok h
  rw [index_of_readSections hs]
  exact List.nodup_range

/-- A host's integers hold every layout a 32-bit object can ask for. -/
theorem fitsFrom_64 {len : Nat} {l : List (Section 64)}
    (hs : ∀ s ∈ l, s.size.toNat < 2 ^ 32 ∧ s.align.toNat < 2 ^ 32)
    (hlen : len + l.length * 2 ^ 33 < 2 ^ 52) : fitsFrom 64 len l = true := by
  have hlast : 2 ^ 52 ≤ lastKey 64 := by unfold lastKey; norm_num
  induction l generalizing len with
  | nil =>
    simp only [fitsFrom, decide_eq_true_eq]
    omega
  | cons s rest ih =>
    obtain ⟨hsize, halign⟩ := hs s List.mem_cons_self
    rw [List.length_cons] at hlen
    have hal : exactAlign s.align len ≤ len + 2 ^ 32 := by
      unfold exactAlign
      split
      · exact (Nat.div_mul_le_self _ _).trans (by omega)
      · omega
    simp only [fitsFrom, Bool.and_eq_true, Bool.or_eq_true, decide_eq_true_eq]
    exact ⟨.inr (by omega), ih (fun t ht => hs t (List.mem_cons_of_mem s ht)) (by omega)⟩

/-- Sizes and alignments have 32 bits in the file. -/
theorem small_of_load {host : Host} {d : List UInt8} {obj : Obj 64} (h : load host d = .ok obj) :
    ∀ s ∈ obj.sec, s.size.toNat < 2 ^ 32 ∧ s.align.toNat < 2 ^ 32 := by
  obtain ⟨-, e, -, hsec, -⟩ := load_ok h
  intro s hs
  obtain ⟨i, hi, rfl⟩ := List.getElem_of_mem hs
  simp only [readSections, bind_ok] at hsec
  obtain ⟨shstr, -, hread⟩ := hsec
  obtain ⟨n, -, hn⟩ := getElem?_of_mapM_ok hread (List.getElem?_eq_getElem hi)
  simp only [readSection, bind_ok, pure_ok] at hn
  obtain ⟨_, -, _, -, _, -, _, -, _, hsize, _, -, _, -, _, halign, _, -, e⟩ := hn
  rw [← e]
  exact ⟨u32_lt (by omega) hsize, u32_lt (by omega) halign⟩

/-- **At 64 bits every layout fits**: at most 65535 sections of less than 4 GiB. -/
theorem fits_64 {host : Host} {d : List UInt8} {obj : Obj 64} (h : load host d = .ok obj) :
    Fits obj.sec := by
  obtain ⟨-, e, he, hsec, -⟩ := load_ok h
  have hnum : e.shnum.toNat < 2 ^ 16 := by
    simp only [readHeader, bind_ok, pure_ok] at he
    obtain ⟨_, -, _, -, _, -, _, -, _, -, _, -, _, -, _, -, _, -, shnum, hnum, _, -, _, -, rfl⟩ := he
    exact u16_lt hnum
  have hlen : obj.sec.length = e.shnum.toNat := by
    rw [← List.length_map (f := (·.index)), index_of_readSections hsec, List.length_range]
  refine fitsFrom_64 (fun s hs => small_of_load h s (mem_loadOrder.mp hs).1) ?_
  have h1 := List.length_filter_le (fun s : Section 64 => s.loads && s.nobits == false) obj.sec
  have h2 := List.length_filter_le (fun s : Section 64 => s.loads && s.nobits == true) obj.sec
  rw [loadOrder, List.length_append]
  omega

/-! ## 2. The image before relocation -/

theorem field_toNat {off k : BitVec w} {n : Nat} (h : Field off n k) (hlt : off.toNat + n < 2 ^ w) :
    off.toNat < k.toNat ∧ k.toNat ≤ off.toNat + n := by
  obtain ⟨i, hi, rfl⟩ := h
  have e : (off + BitVec.ofNat w (i + 1)).toNat = off.toNat + (i + 1) := by
    rw [BitVec.toNat_add, BitVec.toNat_ofNat, Nat.mod_eq_of_lt (by omega : i + 1 < 2 ^ w),
      Nat.mod_eq_of_lt (by omega)]
  omega

theorem add_ofNat_succ (x : BitVec w) (i : Nat) :
    x + 1 + BitVec.ofNat w i = x + BitVec.ofNat w (i + 1) := by
  rw [BitVec.add_assoc, Nat.add_comm i 1, BitVec.ofNat_add]
  rfl

theorem blit_other {m : Image w} {at' k : BitVec w} {bs : List UInt8}
    (h : ¬ Field at' bs.length k) : blit m at' bs k = m k := by
  induction bs generalizing m at' with
  | nil => rfl
  | cons b bs ih =>
    have h1 : k ≠ at' + 1 := fun e => h ⟨0, by simp, e⟩
    rw [blit, ih]
    · simp only [Image.set, if_neg h1]
    · rintro ⟨i, hi, rfl⟩
      exact h ⟨i + 1, by simpa using hi, add_ofNat_succ at' (i + 1)⟩

theorem blit_at {m : Image w} {a : BitVec w} {bs : List UInt8} (hlt : bs.length < 2 ^ w) {i : Nat}
    (hi : i < bs.length) : blit m a bs (a + BitVec.ofNat w (i + 1)) = bs[i]? := by
  induction bs generalizing m a i with
  | nil => simp at hi
  | cons b bs ih =>
    rw [List.length_cons] at hlt hi
    rw [blit]
    cases i with
    | zero =>
      rw [blit_other]
      · exact if_pos rfl
      · rintro ⟨j, hj, e⟩
        rw [add_ofNat_succ] at e
        exact add_ofNat_ne a (by omega) (by omega) (by omega) e
    | succ i =>
      rw [← add_ofNat_succ, ih (by omega) (by omega), List.getElem?_cons_succ]

theorem sectionBytes_ok (hw : 32 ≤ w) {host : Host} {s : Section w} {c : List UInt8}
    (h : sectionBytes host s = .ok c) :
    host.objcopy s.name = .bytes c ∧ c.length = s.size.toNat ∧ c.length < 2 ^ w := by
  unfold sectionBytes at h
  split at h
  · cases h
  · cases h
  · rename_i b hb
    simp only [bind_ok, pure_ok] at h
    obtain ⟨c', hc, _, hsize, rfl⟩ := h
    obtain ⟨rfl, hlen⟩ := readAll_ok hc
    have h2 := two_pow_pred_lt hw
    have hlt : c'.length < 2 ^ w := by
      unfold maxString at hlen
      have := Nat.two_pow_pos (w - 1)
      omega
    have e : BitVec.ofNat w c'.length = s.size := by
      unfold dieIf at hsize
      split at hsize
      · cases hsize
      · rename_i hne
        exact not_not.mp hne
    refine ⟨hb, ?_, hlt⟩
    rw [← e, BitVec.toNat_ofNat, Nat.mod_eq_of_lt hlt]

/-- Blitting one section leaves the bytes of every other placed section alone. -/
theorem blitStep_keeps (hw : 32 ≤ w) {host : Host} {sec : List (Section w)} {l : Layout w}
    (ht : Tiled sec l) {s t : Section w} (hs : s ∈ sec) (htm : t ∈ sec) (hne : t.index ≠ s.index)
    {b : BitVec w} (hb : l.base s.index = some b) {m m' : Image w}
    (h : blitStep host l.base m t = .ok m') {k : BitVec w} (hk : Field b s.size.toNat k) :
    m' k = m k := by
  have hlast := lastKey_lt (w := w)
  have h2 := two_pow_pred_lt hw
  have hlen := ht.len
  have hin := ht.inside s hs b hb
  unfold blitStep at h
  split at h
  · rename_i c hc
    split at h
    · rw [← Except.ok.inj h]
    · simp only [bind_ok, pure_ok] at h
      obtain ⟨bs, hbs, rfl⟩ := h
      obtain ⟨-, hsz, -⟩ := sectionBytes_ok hw hbs
      have hin' := ht.inside t htm c hc
      apply blit_other
      intro hf
      rw [hsz] at hf
      have hk1 := field_toNat hk (by omega)
      have hk2 := field_toNat hf (by omega)
      rcases ht.apart t htm s hs hne c b hc hb with h | h <;> omega
  · rw [← Except.ok.inj h]

/-- **Before relocation, a section of contents holds what objcopy gave for it.** -/
theorem blitAll_bytes (hw : 32 ≤ w) {host : Host} {sec : List (Section w)} {l : Layout w}
    (ht : Tiled sec l) (hnd : (sec.map (·.index)).Nodup) {m : Image w}
    (h : blitAll host sec l = .ok m) {s : Section w} (hs : s ∈ sec) (hno : s.nobits = false)
    {b : BitVec w} (hb : l.base s.index = some b) :
    ∃ bytes, host.objcopy s.name = .bytes bytes ∧ bytes.length = s.size.toNat ∧
      ∀ i < bytes.length, m (b + BitVec.ofNat w (i + 1)) = bytes[i]? := by
  obtain ⟨pre, post, rfl⟩ := List.append_of_mem hs
  unfold blitAll at h
  obtain ⟨m1, -, h⟩ := foldlM_append_ok.mp h
  obtain ⟨m2, hstep, h⟩ := foldlM_cons_ok.mp h
  simp only [blitStep, hb, hno, Bool.false_eq_true, if_false, bind_ok, pure_ok] at hstep
  obtain ⟨c, hc, rfl⟩ := hstep
  obtain ⟨hobj, hsz, hlt⟩ := sectionBytes_ok hw hc
  refine ⟨c, hobj, hsz, fun i hi => ?_⟩
  rw [← blit_at (m := m1) (a := b) hlt hi]
  refine foldlM_keeps (P := fun m => m (b + BitVec.ofNat w (i + 1)) =
    blit m1 b c (b + BitVec.ofNat w (i + 1))) (fun t htp m m' hm e => ?_) h rfl
  have hti : t.index ≠ s.index := by
    rw [List.map_append, List.map_cons, List.nodup_append, List.nodup_cons] at hnd
    exact fun e => hnd.2.1.1 (List.mem_map.mpr ⟨t, htp, e⟩)
  rw [← e]
  exact blitStep_keeps hw ht hs (by simp [htp]) hti hb hm ⟨i, by omega, rfl⟩

/-- The loop over `0 .. image_len - 1` has been at every key of the image. -/
theorem blank_inside (hw : 32 ≤ w) {len k : BitVec w} (hlen : len.toNat < 2 ^ (w - 1)) (hk : 0 < k.toNat)
    (hle : k.toNat ≤ len.toNat) : blank len k = some 0 := by
  have h2 := two_pow_pred_lt hw
  have hpred : ∀ x : BitVec w, 0 < x.toNat → x.toNat < 2 ^ (w - 1) → (x - 1).toInt = x.toNat - 1 := by
    intro x hx hlt
    have hone : (1 : BitVec w) ≤ x := by
      rw [BitVec.le_def, toNat_one hw]
      omega
    rw [toInt_of_lt hw (by rw [BitVec.toNat_sub_of_le hone, toNat_one hw]; omega),
      BitVec.toNat_sub_of_le hone, toNat_one hw]
    omega
  have hk' := hpred k hk (by omega)
  have hlen' := hpred len (by omega) hlen
  exact if_pos (by omega)

/-- Outside the sections of contents the image is what the loop has filled in. -/
theorem blitAll_other {host : Host} {sec : List (Section w)} {l : Layout w} (hw : 32 ≤ w) {m : Image w}
    (h : blitAll host sec l = .ok m) {k : BitVec w}
    (hk : ∀ s ∈ sec, s.nobits = false → ∀ b, l.base s.index = some b → ¬ Field b s.size.toNat k) :
    m k = blank l.imageLen k := by
  refine foldlM_keeps (P := fun m => m k = blank l.imageLen k) (fun s hs m m' hm e => ?_) h rfl
  unfold blitStep at hm
  split at hm
  · rename_i b hb
    split at hm
    · rw [← Except.ok.inj hm]
      exact e
    · rename_i hno
      simp only [bind_ok, pure_ok] at hm
      obtain ⟨bs, hbs, rfl⟩ := hm
      obtain ⟨-, hsz, -⟩ := sectionBytes_ok hw hbs
      have hout := hk s hs (Bool.eq_false_of_not_eq_true hno) b hb
      rw [← hsz] at hout
      exact (blit_other hout).trans e
  · rw [← Except.ok.inj hm]
    exact e

/-- A NOBITS section is zero before relocation. -/
theorem blitAll_zero (hw : 32 ≤ w) {host : Host} {sec : List (Section w)} {l : Layout w}
    (ht : Tiled sec l) (hnd : (sec.map (·.index)).Nodup) {m : Image w}
    (h : blitAll host sec l = .ok m) {s : Section w} (hs : s ∈ sec) (hno : s.nobits = true)
    {b : BitVec w} (hb : l.base s.index = some b) {k : BitVec w} (hk : Field b s.size.toNat k) :
    m k = some 0 := by
  have hlast := lastKey_lt (w := w)
  have h2 := two_pow_pred_lt hw
  have hlen := ht.len
  have hin := ht.inside s hs b hb
  have hk1 := field_toNat hk (by omega)
  rw [blitAll_other hw h fun t htm hto c hc hf => ?_, blank_inside hw (by omega) (by omega) (by omega)]
  have hts : t.index ≠ s.index := by
    intro e
    obtain rfl := List.inj_on_of_nodup_map hnd htm hs e
    rw [hno] at hto
    cases hto
  have hin' := ht.inside t htm c hc
  have hk2 := field_toNat hf (by omega)
  rcases ht.apart t htm s hs hts c b hc hb with h | h <;> omega

/-- The word objcopy gave at a byte offset of a section; zero for NOBITS. -/
def inputWord (host : Host) (s : Section w) (off : Nat) : Option (BitVec 32) :=
  if s.nobits then some 0
  else match host.objcopy s.name with
    | .bytes c => fileWord c off
    | _ => none

/-- **Before relocation, a word of a placed section is the input object's.** -/
theorem imageWord_input (hw : 32 ≤ w) {host : Host} {sec : List (Section w)} {l : Layout w}
    (ht : Tiled sec l) (hnd : (sec.map (·.index)).Nodup) {m : Image w}
    (h : blitAll host sec l = .ok m) {s : Section w} (hs : s ∈ sec) {b : BitVec w}
    (hb : l.base s.index = some b) {off : Nat} (hoff : off + 4 ≤ s.size.toNat) :
    imageWord m (b + BitVec.ofNat w off) = inputWord host s off := by
  have hkey : ∀ j, b + BitVec.ofNat w off + BitVec.ofNat w j = b + BitVec.ofNat w (off + j) := by
    intro j
    rw [BitVec.add_assoc, ← BitVec.ofNat_add]
  have e1 := hkey 1
  have e2 := hkey 2
  have e3 := hkey 3
  have e4 := hkey 4
  unfold imageWord inputWord
  cases hno : s.nobits with
  | true =>
    have hz : ∀ i < s.size.toNat, m (b + BitVec.ofNat w (i + 1)) = some 0 := fun i hi =>
      blitAll_zero hw ht hnd h hs hno hb ⟨i, hi, rfl⟩
    erw [e1, e2, e3, e4, hz off (by omega), hz (off + 1) (by omega), hz (off + 2) (by omega),
      hz (off + 3) (by omega)]
    rfl
  | false =>
    obtain ⟨c, hc, hlen, hbytes⟩ := blitAll_bytes hw ht hnd h hs hno hb
    erw [e1, e2, e3, e4, hbytes off (by omega), hbytes (off + 1) (by omega),
      hbytes (off + 2) (by omega), hbytes (off + 3) (by omega)]
    simp only [hc, Bool.false_eq_true, if_false]
    rfl

/-! ## 3. The file after relocation -/

theorem unpack_map {m : Image w} {k last : BitVec w} {r : List UInt8} (h : unpack m k last = .ok r) :
    r.map some = (List.range (last.toInt - k.toInt + 1).toNat).map fun i => m (k + BitVec.ofNat w i) := by
  refine map_of_mapM_ok (fun i _ b hb => ?_) h
  split at hb
  · rename_i c hc
    rw [hc, Except.ok.inj hb]
  · cases hb

/-- Chunks of 200, laid end to end, are the range they cut up. -/
theorem flatten_chunks (n len : Nat) (h : len ≤ 200 * n) :
    ((List.range n).map fun j => List.range' (200 * j) (min 200 (len - 200 * j))).flatten =
      List.range len := by
  have key : ∀ k, ((List.range k).map fun j =>
      List.range' (200 * j) (min 200 (len - 200 * j))).flatten = List.range (min len (200 * k)) := by
    intro k
    induction k with
    | zero => simp
    | succ k ih =>
      rw [List.range_succ, List.map_append, List.flatten_append, ih, List.map_singleton,
        List.flatten_singleton]
      by_cases hk : 200 * k ≤ len
      · have e : min len (200 * k) = 200 * k := by omega
        have e' : min len (200 * (k + 1)) = 200 * k + min 200 (len - 200 * k) := by omega
        rw [e, e', List.range_eq_range', List.range_eq_range']
        have := List.range'_append_1 (s := 0) (m := 200 * k) (n := min 200 (len - 200 * k))
        rwa [Nat.zero_add] at this
      · -- a chunk behind the end is empty
        have e : min len (200 * (k + 1)) = min len (200 * k) := by omega
        have e' : min 200 (len - 200 * k) = 0 := by omega
        rw [e, e', List.range'_zero, List.append_nil]
  rw [key n, Nat.min_eq_left h]

theorem toInt_ofNat_lt (hw : 32 ≤ w) {n : Nat} (h : n < 2 ^ (w - 1)) : (BitVec.ofNat w n).toInt = n := by
  have h2 := two_pow_pred_lt hw
  have e : (BitVec.ofNat w n).toNat = n := by rw [BitVec.toNat_ofNat, Nat.mod_eq_of_lt (by omega)]
  rw [toInt_of_lt hw (by omega), e]

theorem chunk_first (j : Nat) : (1 : BitVec w) + 200 * BitVec.ofNat w j = BitVec.ofNat w (200 * j + 1) := by
  rw [Nat.add_comm, BitVec.ofNat_add, BitVec.ofNat_mul]
  rfl

theorem chunk_last (j : Nat) : BitVec.ofNat w (200 * j + 1) + 199 = BitVec.ofNat w (200 * j + 200) := by
  rw [show 200 * j + 200 = 200 * j + 1 + 199 from rfl, BitVec.ofNat_add (200 * j + 1)]
  rfl

/-- How many bytes of the image reach the file: the chunk whose last key would wrap is empty. -/
def written (len : BitVec w) : Nat := min len.toInt.toNat (lastKey w)

theorem written_of_le (hw : 32 ≤ w) {len : BitVec w} (hlen : len.toNat ≤ lastKey w) : written len = len.toNat := by
  have hlast := lastKey_lt (w := w)
  unfold written
  rw [toInt_of_lt hw (by omega), Int.toNat_natCast]
  exact Nat.min_eq_left hlen

/-- The chunk number `j`: keys `200 j + 1` up to its end or the last that is written. -/
theorem part_map (hw : 32 ≤ w) {m : Image w} {len : BitVec w} {j : Nat} (hj : 200 * j < len.toInt.toNat)
    {r : List UInt8} (h : part m len (1 + 200 * BitVec.ofNat w j) = .ok r) :
    r.map some = (List.range' (200 * j) (min 200 (written len - 200 * j))).map
      fun i => m (BitVec.ofNat w (i + 1)) := by
  have h2 := two_pow_pred_lt hw
  have hpow : 2 ^ 31 ≤ 2 ^ (w - 1) := Nat.pow_le_pow_right (by omega) (by omega)
  have hlen : len.toInt < ((2 ^ (w - 1) : Nat) : Int) := by
    push_cast
    exact BitVec.toInt_lt
  unfold part at h
  rw [chunk_first, chunk_last] at h
  have h := unpack_map h
  have ecount : ((if len.slt (BitVec.ofNat w (200 * j + 200)) then len else
      BitVec.ofNat w (200 * j + 200)).toInt - (BitVec.ofNat w (200 * j + 1)).toInt + 1).toNat =
      min 200 (written len - 200 * j) := by
    rw [toInt_ofNat_lt hw (by omega : 200 * j + 1 < _)]
    unfold written lastKey
    by_cases hwrap : 200 * j + 200 < 2 ^ (w - 1)
    · by_cases hs : len.slt (BitVec.ofNat w (200 * j + 200))
      · rw [if_pos hs]
        rw [BitVec.slt_iff_toInt_lt, toInt_ofNat_lt hw hwrap] at hs
        omega
      · rw [if_neg hs, toInt_ofNat_lt hw hwrap]
        rw [BitVec.slt_iff_toInt_lt, toInt_ofNat_lt hw hwrap] at hs
        omega
    · -- `k + 199` is negative: the loop body unpacks nothing
      have hneg : (BitVec.ofNat w (200 * j + 200)).toInt < 0 := by
        have hdouble : 2 ^ w = 2 * 2 ^ (w - 1) := by
          rw [← Nat.pow_succ']
          congr 1
          omega
        rw [BitVec.toInt_eq_toNat_cond, BitVec.toNat_ofNat, Nat.mod_eq_of_lt (by omega), if_neg (by omega)]
        omega
      have hs : ¬ len.slt (BitVec.ofNat w (200 * j + 200)) := by
        rw [BitVec.slt_iff_toInt_lt]
        omega
      rw [if_neg hs]
      omega
  rw [ecount] at h
  rw [h, List.range'_eq_map_range, List.map_map]
  refine List.map_congr_left fun i _ => ?_
  show m (BitVec.ofNat w (200 * j + 1) + BitVec.ofNat w i) = m (BitVec.ofNat w (200 * j + i + 1))
  rw [← BitVec.ofNat_add, Nat.add_right_comm]

/-- **The file holds the image, byte for byte**, as far as it is written. -/
theorem blob_map (hw : 32 ≤ w) {m : Image w} {len : BitVec w} {body : List UInt8} (h : blob m len = .ok body) :
    body.map some = (List.range (written len)).map fun i => m (BitVec.ofNat w (i + 1)) := by
  have hle : written len ≤ len.toInt.toNat := Nat.min_le_left _ _
  simp only [blob, bind_ok, pure_ok] at h
  obtain ⟨parts, hparts, rfl⟩ := h
  rw [← flatten_chunks ((len.toInt + 199) / 200).toNat (written len) (by omega),
    List.map_flatten, List.map_flatten, List.map_map]
  congr 1
  refine map_of_mapM_ok (fun j hj r hr => ?_) hparts
  rw [List.mem_range] at hj
  exact part_map hw (by omega) hr

theorem header_length (len entry stack : BitVec w) : (header len entry stack).length = 64 := rfl

/-- **A byte of the image is the same byte of the file**, 64 bytes further on. -/
theorem fileByte_of_blob (hw : 32 ≤ w) {m : Image w} {len : BitVec w} (hlen : len.toNat ≤ lastKey w)
    {body : List UInt8} (h : blob m len = .ok body) {head : List UInt8} (hh : head.length = 64)
    {i : Nat} (hi : i < len.toNat) : (head ++ body)[64 + i]? = m (BitVec.ofNat w (i + 1)) := by
  have hb := congrArg (·[i]?) (blob_map hw h)
  simp only [written_of_le hw hlen, List.getElem?_map] at hb
  rw [List.getElem?_range hi, Option.map_some] at hb
  rw [List.getElem?_append_right (by omega), hh, Nat.add_sub_cancel_left]
  cases e : body[i]? with
  | none => rw [e] at hb; cases hb
  | some c =>
    rw [e] at hb
    exact Option.some.inj hb

theorem key_add (x : BitVec w) (i : Nat) : BitVec.ofNat w (x.toNat + i) = x + BitVec.ofNat w i := by
  rw [BitVec.ofNat_add, BitVec.ofNat_toNat, BitVec.setWidth_eq]

/-- **A word of the image is the same word of the file**, 64 bytes further on. -/
theorem fileWord_of_blob (hw : 32 ≤ w) {m : Image w} {len : BitVec w} (hlen : len.toNat ≤ lastKey w)
    {body : List UInt8} (h : blob m len = .ok body) {head : List UInt8} (hh : head.length = 64)
    {off : BitVec w} (hoff : off.toNat + 4 ≤ len.toNat) :
    fileWord (head ++ body) (64 + off.toNat) = imageWord m off := by
  have hget : ∀ j < 4, (head ++ body)[64 + off.toNat + j]? = m (off + BitVec.ofNat w (j + 1)) := by
    intro j hj
    rw [Nat.add_assoc, fileByte_of_blob hw hlen h hh (by omega), Nat.add_assoc, key_add]
  have h0 := hget 0 (by omega)
  have h1 := hget 1 (by omega)
  have h2 := hget 2 (by omega)
  have h3 := hget 3 (by omega)
  rw [Nat.add_zero] at h0
  unfold fileWord imageWord
  rw [h0, h1, h2, h3]
  rfl

end P4Linux.Mkflt
