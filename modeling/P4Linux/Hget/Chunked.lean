import Mathlib.Tactic.Common
import P4Linux.Hget.Http

/-!
# Chunked bodies, decoded however they arrive

* `SizeLine`, `Chunk`, `ChunkedBody` -- the well-formed bodies, each value with the proofs that it
  is one; `ChunkedBody.bytes` is the wire format, `ChunkedBody.data` what it carries;
* `Serves` -- what the connection and the output are taken to do: every read hands on a part of
  what is still to come, every write succeeds;
* `nextChar_ends`, `sizeLine_ends`, `chunkData_ends` -- one lemma for each loop, over the stream
  `pend ++ rem s`, so that none of them asks where the cut between the pending bytes and the
  connection lies;
* `bodyChunked_ends` -- **the decoder** writes exactly the data.
-/

namespace P4Linux.Hget

open C Proc

/-! ## 1. Well-formed bodies -/

/-- A size line, without its CRLF: hexadecimal digits and perhaps an extension. -/
structure SizeLine (size : Nat) where
  digits : List UInt8
  ext : List UInt8
  digits_ne : digits ≠ []
  isHex : ∀ b ∈ digits, isDigit 16 b
  value_eq : value 16 digits = size
  ext_form : ext = [] ∨ ∃ e, ext = 59 :: e
  no_lf : 10 ∉ ext
  short : (digits ++ ext).length ≤ 63

def SizeLine.chars {size : Nat} (l : SizeLine size) : List UInt8 := l.digits ++ l.ext

structure Chunk where
  data : List UInt8
  data_ne : data ≠ []
  data_lt : data.length < 2 ^ 31
  line : SizeLine data.length

def Chunk.bytes (c : Chunk) : List UInt8 := c.line.chars ++ crlf ++ c.data ++ crlf

/-- Chunks, the zero-size line that closes them, and what follows it (trailers, say). -/
structure ChunkedBody where
  chunks : List Chunk
  last : SizeLine 0
  rest : List UInt8

def ChunkedBody.bytes (b : ChunkedBody) : List UInt8 :=
  b.chunks.flatMap Chunk.bytes ++ (b.last.chars ++ crlf ++ b.rest)

def ChunkedBody.data (b : ChunkedBody) : List UInt8 := b.chunks.flatMap Chunk.data

/-! ## 2. What a size line says -/

theorem isDigit_ne {b c : UInt8} (h : isDigit 16 b) (hc : isDigit 16 c = false) : b ≠ c := by
  rintro rfl
  rw [h] at hc
  cases hc

theorem isDigit_not_space {b : UInt8} (h : isDigit 16 b) : isSpace b = false := by
  cases b with
  | ofBitVec v =>
    revert v
    decide +kernel

/-- The characters that `sizeLine` keeps. -/
def kept (l : List UInt8) : List UInt8 := l.filter (· ≠ 13)

theorem kept_length_le (l : List UInt8) : (kept l).length ≤ l.length := List.length_filter_le _ _

/-- No `0x` among digits that are followed by nothing or a `;`. -/
theorem skip0x_digits {ds ext : List UInt8} (hhex : ∀ b ∈ ds, isDigit 16 b) (hne : ds ≠ [])
    (hext : ext = [] ∨ ∃ e, ext = 59 :: e) : skip0x 16 (ds ++ ext) = ds ++ ext := by
  have hx : ∀ d x rest, ds ++ ext = d :: x :: rest → ¬ (x = 120 ∨ x = 88) := by
    intro d x rest he
    cases ds with
    | nil => exact absurd rfl hne
    | cons d' ds =>
      have he' : ds ++ ext = x :: rest := (List.cons.inj he).2
      cases ds with
      | nil =>
        rcases hext with rfl | ⟨e, rfl⟩
        · cases he'
        · obtain ⟨rfl, -⟩ := List.cons.inj he'
          decide
      | cons x' ds =>
        obtain ⟨rfl, -⟩ := List.cons.inj he'
        have hd : isDigit 16 x' := hhex x' (List.mem_cons_of_mem _ List.mem_cons_self)
        exact fun h => h.elim (isDigit_ne hd rfl) (isDigit_ne hd rfl)
  unfold skip0x
  split
  · rename_i x rest he
    exact if_neg fun h => hx 48 x rest he h.2
  · rfl

/-- Digits and then nothing or a `;`: `strtol` reads the digits. -/
theorem strtol_digits {ds ext : List UInt8} (hne : ds ≠ []) (hhex : ∀ b ∈ ds, isDigit 16 b)
    (hext : ext = [] ∨ ∃ e, ext = 59 :: e) (hlt : value 16 ds < 2 ^ 31) :
    strtol 32 16 (ds ++ ext) = value 16 ds := by
  have hcstr : cstr (ds ++ ext) = ds ++ cstr ext := by
    unfold cstr
    rw [List.takeWhile_append_of_pos]
    intro b hb
    exact decide_eq_true (isDigit_ne (hhex b hb) rfl)
  have hext' : cstr ext = [] ∨ ∃ e, cstr ext = 59 :: e := by
    rcases hext with rfl | ⟨e, rfl⟩
    · exact .inl rfl
    · exact .inr ⟨cstr e, rfl⟩
  have hspace : (ds ++ cstr ext).dropWhile isSpace = ds ++ cstr ext := by
    obtain ⟨d, ds, rfl⟩ := List.exists_cons_of_ne_nil hne
    have hd : isSpace d = false := isDigit_not_space (hhex d List.mem_cons_self)
    exact List.dropWhile_cons_of_neg (by rw [hd]; exact Bool.false_ne_true)
  have hsign : sign (ds ++ cstr ext) = (false, ds ++ cstr ext) := by
    obtain ⟨d, ds, rfl⟩ := List.exists_cons_of_ne_nil hne
    have hd : isDigit 16 d := hhex d List.mem_cons_self
    unfold sign
    split
    · rename_i he
      exact absurd (List.cons.inj he).1 (isDigit_ne hd rfl)
    · rename_i he
      exact absurd (List.cons.inj he).1 (isDigit_ne hd rfl)
    · rfl
  have hrow : (ds ++ cstr ext).takeWhile (isDigit 16) = ds := by
    rw [List.takeWhile_append_of_pos hhex]
    rcases hext' with h | ⟨e, h⟩
    · rw [h]
      exact List.append_nil _
    · rw [h]
      exact List.append_nil _
  unfold strtol
  rw [hcstr, hspace, hsign]
  dsimp only
  rw [skip0x_digits hhex hne hext', hrow, if_neg Bool.false_ne_true]
  unfold clamp
  omega

namespace SizeLine

variable {size : Nat} (l : SizeLine size)

theorem no_lf_chars : 10 ∉ l.chars := by
  intro h
  rcases List.mem_append.mp h with h | h
  · exact isDigit_ne (l.isHex _ h) rfl rfl
  · exact l.no_lf h

theorem kept_chars : kept l.chars = l.digits ++ kept l.ext := by
  unfold chars kept
  rw [List.filter_append, List.filter_eq_self.mpr]
  intro b hb
  exact decide_eq_true (isDigit_ne (l.isHex b hb) rfl)

theorem kept_chars_ne : kept l.chars ≠ [] := by
  rw [kept_chars]
  exact fun h => l.digits_ne (List.append_eq_nil_iff.mp h).1

theorem strtol_kept (h : size < 2 ^ 31) : strtol 32 16 (kept l.chars) = size := by
  rw [kept_chars, strtol_digits l.digits_ne l.isHex ?_ (by rw [l.value_eq]; exact h), l.value_eq]
  rcases l.ext_form with h | ⟨e, h⟩
  · exact .inl (by rw [h]; rfl)
  · exact .inr ⟨kept e, by rw [h]; rfl⟩

end SizeLine

/-! ## 3. The loops -/

/-- What is still to come from the connection (`rem`) and what was written (`out`). -/
structure Serves {σ : Type} (p : Peer σ) (rem out : σ → List UInt8) : Prop where
  read : ∀ s len, 0 < len → rem s ≠ [] → ∃ data s', Ends (p.read len) s (some data) s' ∧
    data ≠ [] ∧ data.length ≤ len ∧ rem s = data ++ rem s' ∧ out s' = out s
  write : ∀ s data, ∃ s', Ends (p.write data) s true s' ∧ rem s' = rem s ∧ out s' = out s ++ data

section

variable {σ : Type} {p : Peer σ} {rem out : σ → List UInt8} (hp : Serves p rem out)
include hp

theorem nextChar_ends {s : σ} {pend rest : List UInt8} {b : UInt8} (h : pend ++ rem s = b :: rest) :
    ∃ pend' s', Ends (nextChar p pend) s (some (b, pend')) s' ∧ pend' ++ rem s' = rest ∧
      out s' = out s := by
  cases pend with
  | cons c pend =>
    obtain ⟨rfl, hrest⟩ := List.cons.inj h
    exact ⟨pend, s, ends_pure.mpr ⟨rfl, rfl⟩, hrest, rfl⟩
  | nil =>
    rw [List.nil_append] at h
    obtain ⟨data, s', hr, hne, hlen, hrem, hout⟩ := hp.read s 1 Nat.one_pos (by rw [h]; simp)
    obtain ⟨c, rfl⟩ := List.length_eq_one_iff.mp
      (Nat.le_antisymm hlen (List.length_pos_iff.mpr hne))
    obtain ⟨rfl, hrest⟩ := List.cons.inj (h.symm.trans hrem)
    exact ⟨[], s', hr.bind (ends_pure.mpr ⟨rfl, rfl⟩), hrest.symm, hout⟩

/-- Induction on the characters: each is taken from the stream, and only the LF stops the loop. -/
theorem sizeLine_ends {n : Nat} {s : σ} {line pend bytes rest : List UInt8} (hlf : 10 ∉ bytes)
    (h : pend ++ rem s = bytes ++ 10 :: rest) (hn : bytes.length < n)
    (hlen : (line ++ kept bytes).length ≤ 63) :
    ∃ pend' s', Ends (sizeLine p n line pend) s (some (line ++ kept bytes, pend')) s' ∧
      pend' ++ rem s' = rest ∧ out s' = out s := by
  induction bytes generalizing n s line pend with
  | nil =>
    obtain ⟨n, rfl⟩ := Nat.exists_eq_succ_of_ne_zero (Nat.ne_of_gt hn)
    obtain ⟨pend', s', hc, hrest, hout⟩ := nextChar_ends hp h
    refine ⟨pend', s', hc.bind ?_, hrest, hout⟩
    dsimp only
    rw [if_pos rfl]
    exact ends_pure.mpr ⟨by rw [kept, List.filter_nil, List.append_nil], rfl⟩
  | cons b bytes ih =>
    obtain ⟨n, rfl⟩ := Nat.exists_eq_succ_of_ne_zero (Nat.ne_of_gt (Nat.zero_lt_of_lt hn))
    obtain ⟨pend', s', hc, hrest, hout⟩ := nextChar_ends hp h
    have hb : b ≠ 10 := fun e => hlf (e ▸ List.mem_cons_self)
    have hlf' : 10 ∉ bytes := fun e => hlf (List.mem_cons_of_mem _ e)
    by_cases hcr : b = 13
    · have hk : kept (b :: bytes) = kept bytes := by rw [hcr]; rfl
      rw [hk] at hlen ⊢
      obtain ⟨pend'', s'', hl, hr, ho⟩ := ih hlf' hrest (Nat.lt_of_succ_lt_succ hn) hlen
      refine ⟨pend'', s'', hc.bind ?_, hr, ho.trans hout⟩
      dsimp only
      rw [if_neg hb, if_neg fun hk => hk.1 hcr]
      exact hl
    · have hk : kept (b :: bytes) = b :: kept bytes := List.filter_cons_of_pos (by simpa using hcr)
      have hcat : line ++ kept (b :: bytes) = (line ++ [b]) ++ kept bytes := by
        rw [hk, List.append_assoc, List.singleton_append]
      rw [hcat] at hlen ⊢
      obtain ⟨pend'', s'', hl, hr, ho⟩ := ih hlf' hrest (Nat.lt_of_succ_lt_succ hn) hlen
      have hroom : line.length < 63 := by
        simp only [List.length_append, List.length_singleton] at hlen
        omega
      refine ⟨pend'', s'', hc.bind ?_, hr, ho.trans hout⟩
      dsimp only
      rw [if_neg hb, if_pos ⟨hcr, hroom⟩]
      exact hl

/-- A piece of a chunk is a prefix of the stream, of at most `want` bytes. -/
theorem piece_ends {s : σ} {pend : List UInt8} {want : Nat} (hw : 0 < want)
    (h : pend ++ rem s ≠ []) :
    ∃ got pend' s', Ends (piece p pend want) s (some (got, pend')) s' ∧ got ≠ [] ∧
      got.length ≤ want ∧ pend ++ rem s = got ++ (pend' ++ rem s') ∧ out s' = out s := by
  cases pend with
  | nil =>
    rw [List.nil_append] at h
    obtain ⟨data, s', hr, hne, hlen, hrem, hout⟩ := hp.read s want hw h
    obtain ⟨b, data, rfl⟩ := List.exists_cons_of_ne_nil hne
    exact ⟨b :: data, [], s', hr.bind (ends_pure.mpr ⟨rfl, rfl⟩), hne, hlen, hrem, hout⟩
  | cons b pend =>
    refine ⟨(b :: pend).take want, (b :: pend).drop want, s, ends_pure.mpr ⟨rfl, rfl⟩, ?_,
      List.length_take_le _ _, ?_, rfl⟩
    · obtain ⟨want, rfl⟩ := Nat.exists_eq_succ_of_ne_zero (Nat.ne_of_gt hw)
      exact List.cons_ne_nil _ _
    · rw [← List.append_assoc, List.take_append_drop]

/-- Induction on the rounds: a piece is a prefix of the data still due, never more. -/
theorem chunkData_ends {n : Nat} {s : σ} {pend data rest : List UInt8} (written : Int)
    (h : pend ++ rem s = data ++ rest) (hn : data.length < n) :
    ∃ pend' s', Ends (chunkData p n data.length pend written) s
      (some pend', written + data.length) s' ∧ pend' ++ rem s' = rest ∧
      out s' = out s ++ data := by
  induction n generalizing s pend data written with
  | zero => exact absurd hn (Nat.not_lt_zero _)
  | succ n ih =>
    unfold chunkData
    by_cases hd : data = []
    · subst hd
      refine ⟨pend, s, ?_, h, (List.append_nil _).symm⟩
      rw [if_neg (by simp)]
      exact ends_pure.mpr ⟨by simp, rfl⟩
    · have hpos : 0 < data.length := List.length_pos_iff.mpr hd
      obtain ⟨want, hwant⟩ : ∃ w, (if (data.length : Int) < iobufSize then (data.length : Int).toNat
        else iobufSize) = w := ⟨_, rfl⟩
      have hle : want ≤ data.length ∧ 0 < want := by
        unfold iobufSize at hwant
        split at hwant <;> omega
      have hsome : pend ++ rem s ≠ [] := by
        rw [h]
        exact fun e => hd (List.append_eq_nil_iff.mp e).1
      obtain ⟨got, pend', s', hg, hne, hlen, hsplit, hout⟩ := piece_ends hp hle.2 hsome
      -- the piece ends inside the data
      obtain ⟨data', rfl⟩ : got <+: data :=
        List.prefix_of_prefix_length_le (List.prefix_append got (pend' ++ rem s'))
          (by rw [← hsplit, h]; exact List.prefix_append data rest) (Nat.le_trans hlen hle.1)
      obtain ⟨s'', hw, hrem, hout'⟩ := hp.write s' got
      have hrest : pend' ++ rem s'' = data' ++ rest := by
        rw [h, List.append_assoc] at hsplit
        rw [hrem]
        exact (List.append_cancel_left hsplit).symm
      have hgot : 0 < got.length := List.length_pos_iff.mpr hne
      rw [List.length_append] at hn
      obtain ⟨pend'', s3, hloop, hr, ho⟩ := ih (written + got.length) hrest (by omega)
      refine ⟨pend'', s3, ?_, hr, ?_⟩
      · rw [if_pos (by omega), hwant]
        refine hg.bind (hw.bind ?_)
        rw [if_pos rfl]
        have e1 : (((got ++ data').length : Nat) : Int) - got.length = data'.length := by
          rw [List.length_append]
          omega
        have e2 : written + (((got ++ data').length : Nat) : Int) =
            written + got.length + data'.length := by
          rw [List.length_append]
          omega
        rw [e1, e2]
        exact hloop
      · rw [ho, hout', hout, List.append_assoc]

/-! ## 4. The decoder -/

/-- One round of `for (;;)` up to the size: a line that ends in CRLF, with room for its characters. -/
theorem sizeLine_crlf {n : Nat} {s : σ} {pend chars rest : List UInt8} (hlf : 10 ∉ chars)
    (hlen : chars.length ≤ 63) (h : pend ++ rem s = chars ++ crlf ++ rest)
    (hn : chars.length + 1 < n) :
    ∃ pend' s', Ends (sizeLine p n [] pend) s (some (kept chars, pend')) s' ∧
      pend' ++ rem s' = rest ∧ out s' = out s := by
  have hk : kept (chars ++ [13]) = kept chars := by
    unfold kept
    rw [List.filter_append]
    exact List.append_nil _
  have hsplit : pend ++ rem s = chars ++ [13] ++ 10 :: rest := by
    rw [h, crlf, List.append_assoc, List.append_assoc]
    rfl
  have h63 : ([] ++ kept (chars ++ [13])).length ≤ 63 := by
    rw [hk]
    exact Nat.le_trans (kept_length_le chars) hlen
  have hlf' : 10 ∉ chars ++ [13] := by
    rw [List.mem_append, not_or]
    exact ⟨hlf, by decide⟩
  obtain ⟨pend', s', hl, hr, ho⟩ := sizeLine_ends hp hlf' hsplit
    (by rw [List.length_append]; exact hn) h63
  rw [List.nil_append, hk] at hl
  exact ⟨pend', s', hl, hr, ho⟩

/-- Induction on the chunks. A chunk takes two rounds of the loop: the second meets the CRLF after
    the data. -/
theorem chunkLoop_ends (chunks : List Chunk) (last : SizeLine 0) (rest : List UInt8) {n : Nat} {s : σ}
    {pend : List UInt8} (written : Int)
    (h : pend ++ rem s = chunks.flatMap Chunk.bytes ++ (last.chars ++ crlf ++ rest))
    (hn : (pend ++ rem s).length < n) :
    ∃ s', Ends (chunkLoop p n pend written) s
      (.ok, written + (chunks.flatMap Chunk.data).length) s' ∧
      out s' = out s ++ chunks.flatMap Chunk.data := by
  induction chunks generalizing n s pend written with
  | nil =>
    obtain ⟨n, rfl⟩ := Nat.exists_eq_succ_of_ne_zero (Nat.ne_of_gt (Nat.zero_lt_of_lt hn))
    rw [List.flatMap_nil, List.nil_append] at h
    rw [h] at hn
    simp only [List.length_append, crlf, List.length_cons, List.length_nil] at hn
    obtain ⟨pend', s', hl, -, ho⟩ := sizeLine_crlf hp last.no_lf_chars last.short h
      (n := n) (by omega)
    refine ⟨s', hl.bind ?_, by rw [ho, List.flatMap_nil, List.append_nil]⟩
    obtain ⟨c, line, hline⟩ := List.exists_cons_of_ne_nil last.kept_chars_ne
    have hsize : strtol 32 16 (kept last.chars) = 0 := last.strtol_kept (by decide)
    rw [hline] at hsize ⊢
    dsimp only
    rw [hsize, if_pos (Int.le_refl _)]
    exact ends_pure.mpr ⟨by rw [List.flatMap_nil, List.length_nil, Int.natCast_zero, Int.add_zero], rfl⟩
  | cons c chunks ih =>
    rw [List.flatMap_cons] at h ⊢
    obtain ⟨tail, htail⟩ : ∃ t, chunks.flatMap Chunk.bytes ++ (last.chars ++ crlf ++ rest) = t :=
      ⟨_, rfl⟩
    rw [List.append_assoc, htail] at h
    have hc : pend ++ rem s = c.line.chars ++ crlf ++ (c.data ++ (crlf ++ tail)) := by
      rw [h, Chunk.bytes, List.append_assoc, List.append_assoc]
    have hlen : (pend ++ rem s).length =
        c.line.chars.length + 2 + (c.data.length + (2 + tail.length)) := by
      rw [hc, List.length_append, List.length_append, List.length_append, List.length_append]
      rfl
    obtain ⟨n, rfl⟩ : ∃ m, n = m + 2 := ⟨n - 2, by omega⟩
    -- the size line
    obtain ⟨p1, s1, hl1, hr1, ho1⟩ := sizeLine_crlf hp (n := n + 1) c.line.no_lf_chars c.line.short hc
      (by omega)
    -- the data
    obtain ⟨p2, s2, hl2, hr2, ho2⟩ := chunkData_ends hp (n := n + 1) written hr1 (by omega)
    -- the CRLF after the data: an empty line
    have hempty : p2 ++ rem s2 = [] ++ crlf ++ tail := hr2
    obtain ⟨p3, s3, hl3, hr3, ho3⟩ := sizeLine_crlf hp (n := n) List.not_mem_nil (Nat.zero_le _) hempty
      (by rw [List.length_nil]; omega)
    obtain ⟨s', hloop, ho⟩ := ih (n := n) (written + c.data.length) (hr3.trans htail.symm)
      (by rw [hr3]; omega)
    refine ⟨s', hl1.bind ?_, ?_⟩
    · obtain ⟨b, line, hline⟩ := List.exists_cons_of_ne_nil c.line.kept_chars_ne
      have hsize := c.line.strtol_kept c.data_lt
      have hpos : 0 < c.data.length := List.length_pos_iff.mpr c.data_ne
      rw [hline] at hsize ⊢
      dsimp only
      rw [hsize, if_neg (by omega)]
      refine hl2.bind (hl3.bind ?_)
      dsimp only
      have hw : written + ((c.data ++ chunks.flatMap Chunk.data).length : Nat) =
          written + c.data.length + (chunks.flatMap Chunk.data).length := by
        rw [List.length_append, Int.natCast_add, Int.add_assoc]
      rw [hw]
      exact hloop
    · rw [ho, ho3, ho2, ho1, List.append_assoc]

/-- **A well-formed chunked body** is decoded exactly, wherever the headers' read cut it and however
    the rest of it arrives; a round for each byte is enough. -/
theorem bodyChunked_ends (b : ChunkedBody) (r : Resp) (hdrbuf : List UInt8) (written : Int) (s : σ)
    (h : r.pending hdrbuf ++ rem s = b.bytes) {n : Nat} (hn : b.bytes.length < n) :
    ∃ s', Ends (bodyChunked p n hdrbuf r written) s (.ok, written + b.data.length) s' ∧
      out s' = out s ++ b.data :=
  chunkLoop_ends hp b.chunks b.last b.rest written h (by rw [h]; exact hn)

end

/-! ## 5. A connection that trickles -/

theorem trickle_serves : Serves trickle Prod.fst Prod.snd where
  read s len hlen hrem := by
    refine ⟨_, _, ends_step.mpr rfl, ?_, ?_, (List.take_append_drop _ _).symm, rfl⟩
    · intro h
      rcases List.take_eq_nil_iff.mp h with h | h
      · omega
      · exact hrem h
    · exact Nat.le_trans (List.length_take_le _ _) (Nat.min_le_left _ _)
  write s data := ⟨_, ends_step.mpr rfl, rfl, rfl⟩

/-- `4;q=1 CRLF Wiki CRLF 0005 CRLF pedia CRLF 0 CRLF CRLF`. -/
def wikipedia : ChunkedBody where
  chunks :=
    [⟨[87, 105, 107, 105], by decide, by decide,
        ⟨[52], [59, 113, 61, 49], by decide, List.all_eq_true.mp rfl, rfl, .inr ⟨_, rfl⟩, by decide, by decide⟩⟩,
      ⟨[112, 101, 100, 105, 97], by decide, by decide,
        ⟨[48, 48, 48, 53], [], by decide, List.all_eq_true.mp rfl, rfl, .inl rfl, by decide, by decide⟩⟩]
  last := ⟨[48], [], by decide, List.all_eq_true.mp rfl, rfl, .inl rfl, by decide, by decide⟩
  rest := crlf

/-- Six bytes came with the headers: the cut is between the CR and the LF of a size line. -/
theorem bodyChunked_ends_trickle :
    ∃ s', Ends (bodyChunked trickle 40 (crlf2 ++ wikipedia.bytes.take 6) ⟨200, -1, true, [], 4, 6⟩ 0)
      (wikipedia.bytes.drop 6, []) (.ok, 0 + 9) s' ∧ s'.2 = [] ++ wikipedia.data :=
  bodyChunked_ends trickle_serves wikipedia ⟨200, -1, true, [], 4, 6⟩ (crlf2 ++ wikipedia.bytes.take 6) 0
    (wikipedia.bytes.drop 6, []) rfl (by decide)

end P4Linux.Hget
