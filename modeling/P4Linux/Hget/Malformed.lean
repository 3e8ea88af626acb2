import P4Linux.Hget.Plain

/-!
# Malformed chunked bodies

* `Reading` -- how the decoder takes a stream apart: size lines, as far as `line[64]` keeps them and
  `strtol` reads them, and the bytes it takes for the data of each;
* `CompleteBody` -- what it took is a complete chunked body: each size line says how many bytes of data
  follow it;
* `chunkLoop_reading` -- after `EX_OK` a reading has come to its end, however the stream was cut;
* `bodyChunked_complete_iff` -- and is a complete body if and only if the stream is `Honest`.
-/

namespace P4Linux.Hget

open C Proc

/-! ## 1. Size lines -/

/-- The hexadecimal digits that a line begins with. -/
def hexRun (line : List UInt8) : List UInt8 := line.takeWhile (isDigit 16)

/-- The line begins with the number `size`. -/
def Denotes (line : List UInt8) (size : Nat) : Prop := hexRun line ≠ [] ∧ value 16 (hexRun line) = size

/-- What `line[64]` keeps of a line. -/
def cut (line : List UInt8) : List UInt8 := (kept line).take 63

/-- `strtol` gives the number that the line begins with. -/
def Meant (line : List UInt8) : Prop :=
  hexRun line ≠ [] ∧ strtol 32 16 (cut line) = value 16 (hexRun line)

/-- A line that begins with a digit is not empty, and has that digit first when it is cut. -/
theorem cut_of_hexRun {line : List UInt8} (h : hexRun line ≠ []) :
    kept line ≠ [] ∧ ∃ d l, cut line = d :: l ∧ isDigit 16 d = true := by
  cases line with
  | nil => exact absurd rfl h
  | cons d line =>
    have hd : isDigit 16 d = true := by
      by_contra hno
      exact h (List.takeWhile_cons_of_neg hno)
    have hkept : kept (d :: line) = d :: kept line :=
      List.filter_cons_of_pos (decide_eq_true (isDigit_ne hd rfl))
    unfold cut
    rw [hkept]
    exact ⟨List.cons_ne_nil _ _, d, _, rfl, hd⟩

/-- A number that begins with a digit is not negative. -/
theorem strtol_nonneg {line : List UInt8} (h : hexRun line ≠ []) : 0 ≤ strtol 32 16 (cut line) := by
  obtain ⟨-, d, l, hcut, hd⟩ := cut_of_hexRun h
  have hspace : (cstr (d :: l)).dropWhile isSpace = cstr (d :: l) ∧ (sign (cstr (d :: l))).1 = false := by
    have hcstr : cstr (d :: l) = d :: cstr l := List.takeWhile_cons_of_pos (decide_eq_true (isDigit_ne hd rfl))
    rw [hcstr]
    refine ⟨List.dropWhile_cons_of_neg (by rw [isDigit_not_space hd]; exact Bool.false_ne_true), ?_⟩
    unfold sign
    split
    · rename_i he
      exact absurd (List.cons.inj he).1 (isDigit_ne hd rfl)
    · rfl
    · rfl
  unfold strtol
  rw [hcut, hspace.1]
  dsimp only
  rw [hspace.2, if_neg Bool.false_ne_true]
  unfold clamp
  omega

/-- A stream has one first line. -/
theorem line_inj {line line' rest rest' : List UInt8} (h : 10 ∉ line) (h' : 10 ∉ line')
    (he : line ++ 10 :: rest = line' ++ 10 :: rest') : line = line' ∧ rest = rest' := by
  have hline := congrArg (List.takeWhile fun b => decide (b ≠ 10)) he
  rw [takeWhile_ne h, takeWhile_ne h'] at hline
  subst hline
  exact ⟨rfl, (List.cons.inj (List.append_cancel_left he)).2⟩

/-! ## 2. Readings -/

/-- **How the decoder takes a stream apart**: the size lines with their data, the line it ends with, and
    what it leaves. An empty line is none of them. -/
inductive Reading : List UInt8 → List (List UInt8 × List UInt8) → List UInt8 → List UInt8 → Prop
  | blank {line rest last after : List UInt8} {chunks : List (List UInt8 × List UInt8)} : 10 ∉ line →
      kept line = [] → Reading rest chunks last after → Reading (line ++ 10 :: rest) chunks last after
  | chunk {line data rest last after : List UInt8} {chunks : List (List UInt8 × List UInt8)} : 10 ∉ line →
      kept line ≠ [] → data ≠ [] → strtol 32 16 (cut line) = data.length → Reading rest chunks last after →
      Reading (line ++ 10 :: (data ++ rest)) ((line, data) :: chunks) last after
  | last {line after : List UInt8} : 10 ∉ line → kept line ≠ [] → strtol 32 16 (cut line) ≤ 0 →
      Reading (line ++ 10 :: after) [] line after

/-- Each size line denotes the number of bytes that follow it, and the last one, which is not cut off,
    zero. -/
structure CompleteBody (chunks : List (List UInt8 × List UInt8)) (last : List UInt8) : Prop where
  sizes : ∀ c ∈ chunks, Denotes c.1 c.2.length
  zero : Denotes last 0
  whole : (kept last).length ≤ 63

/-- **A stream that begins with a complete chunked body** whose size lines `strtol` reads as they are
    meant. -/
inductive Honest : List UInt8 → Prop
  | blank {line rest : List UInt8} : 10 ∉ line → kept line = [] → Honest rest → Honest (line ++ 10 :: rest)
  | chunk {line data rest : List UInt8} : 10 ∉ line → Meant line → data ≠ [] → Denotes line data.length →
      Honest rest → Honest (line ++ 10 :: (data ++ rest))
  | last {line rest : List UInt8} : 10 ∉ line → Meant line → Denotes line 0 → (kept line).length ≤ 63 →
      Honest (line ++ 10 :: rest)

theorem Honest.inv {line rest : List UInt8} (hlf : 10 ∉ line) (h : Honest (line ++ 10 :: rest)) :
    kept line = [] ∧ Honest rest ∨ Meant line ∧ (Denotes line 0 ∧ (kept line).length ≤ 63 ∨
      ∃ data rest', rest = data ++ rest' ∧ data ≠ [] ∧ Denotes line data.length ∧ Honest rest') := by
  obtain ⟨stream, hstream⟩ : ∃ stream, line ++ 10 :: rest = stream := ⟨_, rfl⟩
  rw [hstream] at h
  cases h with
  | blank hlf' hkept hrest =>
    obtain ⟨rfl, rfl⟩ := line_inj hlf hlf' hstream
    exact .inl ⟨hkept, hrest⟩
  | @chunk _ data rest' hlf' hmeant hne hden hrest =>
    obtain ⟨rfl, rfl⟩ := line_inj hlf hlf' hstream
    exact .inr ⟨hmeant, .inr ⟨data, rest', rfl, hne, hden, hrest⟩⟩
  | last hlf' hmeant hzero hwhole =>
    obtain ⟨rfl, rfl⟩ := line_inj hlf hlf' hstream
    exact .inr ⟨hmeant, .inl ⟨hzero, hwhole⟩⟩

theorem CompleteBody.honest {stream last after : List UInt8} {chunks : List (List UInt8 × List UInt8)}
    (hr : Reading stream chunks last after) (h : CompleteBody chunks last) : Honest stream := by
  induction hr with
  | blank hlf hkept _ ih => exact .blank hlf hkept (ih h)
  | @chunk line data _ _ _ _ hlf _ hne hsize _ ih =>
    have hden : Denotes line data.length := h.sizes (line, data) List.mem_cons_self
    have hmeant : Meant line := ⟨hden.1, by rw [hsize, hden.2]⟩
    exact .chunk hlf hmeant hne hden (ih ⟨fun c hc => h.sizes c (List.mem_cons_of_mem _ hc), h.zero, h.whole⟩)
  | last hlf _ hle =>
    have hzero := Int.le_antisymm hle (strtol_nonneg h.zero.1)
    exact .last hlf ⟨h.zero.1, by rw [hzero, h.zero.2]; rfl⟩ h.zero h.whole

/-- Induction on the reading: it takes the lines and the data of the body. -/
theorem Honest.complete {stream last after : List UInt8} {chunks : List (List UInt8 × List UInt8)}
    (hr : Reading stream chunks last after) (h : Honest stream) : CompleteBody chunks last := by
  induction hr with
  | blank hlf hkept _ ih =>
    rcases h.inv hlf with ⟨-, hrest⟩ | ⟨hmeant, -⟩
    · exact ih hrest
    · exact absurd hkept (cut_of_hexRun hmeant.1).1
  | @chunk line data rest last after chunks hlf hkept hne hsize _ ih =>
    have hpos : 0 < data.length := List.length_pos_iff.mpr hne
    rcases h.inv hlf with ⟨hno, -⟩ | ⟨hmeant, ⟨hzero, -⟩ | ⟨data', rest', hrest, -, hden, hhonest⟩⟩
    · exact absurd hno hkept
    · have hvalue := hmeant.2
      rw [hsize, hzero.2] at hvalue
      omega
    · -- both take as many bytes
      have hvalue := hmeant.2
      rw [hsize, hden.2] at hvalue
      obtain ⟨rfl, rfl⟩ := List.append_inj hrest (by omega)
      obtain ⟨hsizes, hlast, hwhole⟩ := ih hhonest
      refine ⟨fun c hc => ?_, hlast, hwhole⟩
      rcases List.mem_cons.mp hc with rfl | hc
      · exact hden
      · exact hsizes c hc
  | @last line after hlf hkept hle =>
    rcases h.inv hlf with ⟨hno, -⟩ | ⟨hmeant, ⟨hzero, hwhole⟩ | ⟨data, rest', -, hne, hden, -⟩⟩
    · exact absurd hno hkept
    · exact ⟨fun c hc => absurd hc List.not_mem_nil, hzero, hwhole⟩
    · have hpos : 0 < data.length := List.length_pos_iff.mpr hne
      have hvalue := hmeant.2
      rw [hden.2] at hvalue
      omega

/-! ## 3. The loops, when anything may fail -/

section

variable {σ : Type} {p : Peer σ} {rem out : σ → List UInt8} (hp : Flows p rem out)

include hp

theorem nextChar_flows {s s' : σ} {pend pend' : List UInt8} {b : UInt8}
    (h : Ends (nextChar p pend) s (some (b, pend')) s') :
    pend ++ rem s = b :: (pend' ++ rem s') ∧ out s' = out s := by
  cases pend with
  | cons c pend =>
    obtain ⟨he, rfl⟩ := ends_pure.mp h
    cases he
    exact ⟨rfl, rfl⟩
  | nil =>
    obtain ⟨res, t, hr, h⟩ := ends_bind.mp h
    obtain ⟨hout, hdata⟩ := hp.read _ _ _ _ hr
    rcases res with _ | _ | ⟨c, data⟩
    · cases (ends_pure.mp h).1
    · cases (ends_pure.mp h).1
    · obtain ⟨he, rfl⟩ := ends_pure.mp h
      cases he
      obtain ⟨hlen, hrem, -⟩ := hdata _ rfl
      obtain rfl : data = [] := List.length_eq_zero_iff.mp (by rw [List.length_cons] at hlen; omega)
      exact ⟨hrem, hout⟩

/-- Induction on the rounds: a line ends at the first LF, and no more than 63 characters are kept. -/
theorem sizeLine_flows {n : Nat} {s s' : σ} {line line' pend pend' : List UInt8} (hroom : line.length ≤ 63)
    (h : Ends (sizeLine p n line pend) s (some (line', pend')) s') :
    ∃ raw, 10 ∉ raw ∧ pend ++ rem s = raw ++ 10 :: (pend' ++ rem s') ∧
      line' = (line ++ kept raw).take 63 ∧ out s' = out s := by
  induction n generalizing s line pend with
  | zero => exact absurd h not_ends_stuck
  | succ n ih =>
    obtain ⟨res, t, hc, h⟩ := ends_bind.mp h
    rcases res with _ | ⟨b, pend₁⟩
    · cases (ends_pure.mp h).1
    · obtain ⟨hsplit, hout⟩ := nextChar_flows hp hc
      rw [← hout, hsplit]
      dsimp only at h
      by_cases hb : b = 10
      · rw [if_pos hb] at h
        obtain ⟨he, rfl⟩ := ends_pure.mp h
        cases he
        subst hb
        refine ⟨[], List.not_mem_nil, rfl, ?_, rfl⟩
        rw [kept, List.filter_nil, List.append_nil, List.take_of_length_le hroom]
      · rw [if_neg hb] at h
        have hcons : ∀ raw, 10 ∉ raw → 10 ∉ b :: raw := fun raw hraw => by
          rw [List.mem_cons, not_or]
          exact ⟨fun e => hb e.symm, hraw⟩
        by_cases hkeep : b ≠ 13 ∧ line.length < 63
        · rw [if_pos hkeep] at h
          obtain ⟨raw, hraw, hrest, hline, ho⟩ := ih (by rw [List.length_append]; exact hkeep.2) h
          refine ⟨b :: raw, hcons raw hraw, by rw [hrest]; rfl, ?_, ho⟩
          have hk : kept (b :: raw) = b :: kept raw := List.filter_cons_of_pos (decide_eq_true hkeep.1)
          rw [hline, hk, List.append_assoc]
          rfl
        · rw [if_neg hkeep] at h
          obtain ⟨raw, hraw, hrest, hline, ho⟩ := ih hroom h
          refine ⟨b :: raw, hcons raw hraw, by rw [hrest]; rfl, ?_, ho⟩
          rw [hline]
          by_cases hcr : b = 13
          · rw [hcr]
            rfl
          · -- the buffer is full
            have hfull : line.length = 63 :=
              Nat.le_antisymm hroom (Nat.not_lt.mp fun hlt => hkeep ⟨hcr, hlt⟩)
            rw [List.take_left' hfull, List.take_left' hfull]

theorem piece_flows {s s' : σ} {pend got pend' : List UInt8} {want : Nat} (hw : 0 < want)
    (h : Ends (piece p pend want) s (some (got, pend')) s') :
    0 < got.length ∧ got.length ≤ want ∧ pend ++ rem s = got ++ (pend' ++ rem s') ∧ out s' = out s := by
  cases pend with
  | nil =>
    obtain ⟨res, t, hr, h⟩ := ends_bind.mp h
    obtain ⟨hout, hdata⟩ := hp.read _ _ _ _ hr
    rcases res with _ | _ | ⟨c, data⟩
    · cases (ends_pure.mp h).1
    · cases (ends_pure.mp h).1
    · obtain ⟨he, rfl⟩ := ends_pure.mp h
      cases he
      obtain ⟨hlen, hrem, -⟩ := hdata _ rfl
      exact ⟨Nat.succ_pos _, hlen, hrem, hout⟩
  | cons b pend =>
    obtain ⟨he, rfl⟩ := ends_pure.mp h
    cases he
    refine ⟨?_, List.length_take_le _ _, ?_, rfl⟩
    · rw [List.length_take, List.length_cons]
      omega
    · rw [← List.append_assoc, List.take_append_drop]

/-- Induction on the rounds: the data of a chunk are as many bytes as it counts. -/
theorem chunkData_flows {n : Nat} {s s' : σ} {chunk written w : Int} {pend pend' : List UInt8}
    (hpos : 0 ≤ chunk) (h : Ends (chunkData p n chunk pend written) s (some pend', w) s') :
    ∃ data, (data.length : Int) = chunk ∧ pend ++ rem s = data ++ (pend' ++ rem s') ∧
      out s' = out s ++ data := by
  induction n generalizing s chunk written pend with
  | zero => exact absurd h not_ends_stuck
  | succ n ih =>
    unfold chunkData at h
    by_cases h0 : 0 < chunk
    · rw [if_pos h0] at h
      obtain ⟨want, hwant⟩ : ∃ want, (if chunk < iobufSize then chunk.toNat else iobufSize) = want := ⟨_, rfl⟩
      have hle : (want : Int) ≤ chunk ∧ 0 < want := by
        unfold iobufSize at hwant
        split at hwant
        · omega
        · omega
      rw [hwant] at h
      obtain ⟨res, t, hg, h⟩ := ends_bind.mp h
      rcases res with _ | ⟨got, pend₁⟩
      · cases (ends_pure.mp h).1
      · obtain ⟨hgot, hlen, hsplit, hout⟩ := piece_flows hp hle.2 hg
        obtain ⟨ok, t', hw, h⟩ := ends_bind.mp h
        cases ok with
        | false => cases (ends_pure.mp h).1
        | true =>
          obtain ⟨hrem, hout'⟩ := hp.write _ _ _ hw
          rw [if_pos rfl] at h
          obtain ⟨data, hdata, hrest, ho⟩ := ih (by omega) h
          refine ⟨got ++ data, ?_, ?_, ?_⟩
          · rw [List.length_append]
            omega
          · rw [hsplit, ← hrem, hrest, List.append_assoc]
          · rw [ho, hout', hout, List.append_assoc]
    · rw [if_neg h0] at h
      obtain ⟨he, rfl⟩ := ends_pure.mp h
      cases he
      exact ⟨[], by rw [List.length_nil]; omega, rfl, (List.append_nil _).symm⟩

/-- Induction on the rounds: one line, and the data it counts, is one step of the reading. -/
theorem chunkLoop_reading {n : Nat} {s s' : σ} {pend : List UInt8} {written w : Int}
    (h : Ends (chunkLoop p n pend written) s (.ok, w) s') : ∃ chunks last pend',
      Reading (pend ++ rem s) chunks last (pend' ++ rem s') ∧ out s' = out s ++ chunks.flatMap Prod.snd := by
  induction n generalizing s pend written with
  | zero => exact absurd h not_ends_stuck
  | succ n ih =>
    obtain ⟨res, t, hl, h⟩ := ends_bind.mp h
    rcases res with _ | ⟨line, pend₁⟩
    · cases (ends_pure.mp h).1
    · obtain ⟨raw, hlf, hsplit, hline, hout⟩ := sizeLine_flows hp (Nat.zero_le _) hl
      rw [List.nil_append] at hline
      rw [hsplit, ← hout]
      rcases line with _ | ⟨c, line⟩
      · obtain ⟨chunks, last, pend', hread, ho⟩ := ih h
        have hblank : kept raw = [] := by
          refine (List.take_eq_nil_iff.mp hline.symm).resolve_left (by decide)
        exact ⟨chunks, last, pend', .blank hlf hblank hread, ho⟩
      · have hkept : kept raw ≠ [] := by
          intro hnil
          rw [hnil, List.take_nil] at hline
          cases hline
        have hcut : c :: line = cut raw := hline
        dsimp only at h
        rw [hcut] at h
        split at h
        · rename_i hle
          obtain ⟨-, rfl⟩ := ends_pure.mp h
          exact ⟨[], raw, pend₁, .last hlf hkept hle, (List.append_nil _).symm⟩
        · obtain ⟨⟨res, w₁⟩, t', hd, h⟩ := ends_bind.mp h
          cases res with
          | none => cases (ends_pure.mp h).1
          | some pend₂ =>
            obtain ⟨data, hdata, hrest, hout'⟩ := chunkData_flows hp (by omega) hd
            obtain ⟨chunks, last, pend', hread, ho⟩ := ih h
            have hne : data ≠ [] := by
              rintro rfl
              rw [List.length_nil] at hdata
              omega
            rw [hrest]
            refine ⟨(raw, data) :: chunks, last, pend', .chunk hlf hkept hne hdata.symm hread, ?_⟩
            rw [ho, hout', List.flatMap_cons, List.append_assoc]

/-- **`EX_OK` from `body_chunked`**, on any stream, however it is cut: what was taken is a complete chunked
    body if and only if the stream is honest. -/
theorem bodyChunked_complete_iff {n : Nat} {s s' : σ} {hdrbuf : List UInt8} {r : Resp} {written w : Int}
    (h : Ends (bodyChunked p n hdrbuf r written) s (.ok, w) s') : ∃ chunks last pend',
      Reading (r.pending hdrbuf ++ rem s) chunks last (pend' ++ rem s') ∧
      out s' = out s ++ chunks.flatMap Prod.snd ∧
      (CompleteBody chunks last ↔ Honest (r.pending hdrbuf ++ rem s)) := by
  obtain ⟨chunks, last, pend', hread, hout⟩ := chunkLoop_reading hp h
  exact ⟨chunks, last, pend', hread, hout, CompleteBody.honest hread, Honest.complete hread⟩

end

/-! ## 4. Two streams that trickle -/

theorem trickle_flows : Flows trickle Prod.fst Prod.snd where
  read s len res s' h := by
    obtain ⟨rfl, rfl⟩ := Prod.mk.inj (ends_step.mp h)
    refine ⟨rfl, fun data hdata => ?_⟩
    obtain rfl := Option.some.inj hdata
    refine ⟨Nat.le_trans (List.length_take_le _ _) (Nat.min_le_left _ _), (List.take_append_drop _ _).symm, ?_⟩
    intro hnil hlen
    exact (List.take_eq_nil_iff.mp hnil).resolve_left (by omega)
  write s data s' h := by
    obtain ⟨-, rfl⟩ := Prod.mk.inj (ends_step.mp h)
    exact ⟨rfl, rfl⟩

/-- `2 CRLF hi CRLF 0 CRLF`, of which two bytes came with the headers. -/
theorem bodyChunked_complete_hi : ∃ w s', Ends (bodyChunked trickle 20 (crlf2 ++ [50, 13])
      ⟨200, -1, true, [], 4, 2⟩ 0) ([10, 104, 105, 13, 10, 48, 13, 10], []) (.ok, w) s' ∧
    ∃ chunks last pend', Reading ([50, 13] ++ [10, 104, 105, 13, 10, 48, 13, 10]) chunks last (pend' ++ s'.1) ∧
      s'.2 = [] ++ chunks.flatMap Prod.snd ∧
      (CompleteBody chunks last ↔ Honest ([50, 13] ++ [10, 104, 105, 13, 10, 48, 13, 10])) := by
  obtain ⟨⟨e, w⟩, s', h, he⟩ := exists_ends (x := bodyChunked trickle 20 (crlf2 ++ [50, 13])
    ⟨200, -1, true, [], 4, 2⟩ 0) (s := ([10, 104, 105, 13, 10, 48, 13, 10], [])) (p := fun a => a.1 = .ok)
    (by decide +kernel)
  obtain rfl : e = .ok := of_decide_eq_true he
  exact ⟨w, s', h, bodyChunked_complete_iff trickle_flows h⟩

/-- `xyz CRLF`, a page of text say: `EX_OK`, and the line is taken for the last chunk. -/
theorem not_bodyChunked_complete : (∃ w s', Ends (bodyChunked trickle 20 crlf2 ⟨200, -1, true, [], 4, 0⟩ 0)
      ([120, 121, 122, 13, 10], []) (.ok, w) s') ∧
    ¬ ∃ chunks last after, Reading [120, 121, 122, 13, 10] chunks last after ∧ CompleteBody chunks last := by
  constructor
  · obtain ⟨⟨e, w⟩, s', h, he⟩ := exists_ends (x := bodyChunked trickle 20 crlf2 ⟨200, -1, true, [], 4, 0⟩ 0)
      (s := ([120, 121, 122, 13, 10], [])) (p := fun a => a.1 = .ok) (by decide +kernel)
    obtain rfl : e = .ok := of_decide_eq_true he
    exact ⟨w, s', h⟩
  · intro hcomplete
    obtain ⟨chunks, last, after, hread, hbody⟩ := hcomplete
    have hhonest : Honest ([120, 121, 122, 13] ++ 10 :: []) := hbody.honest hread
    rcases hhonest.inv (by decide) with ⟨hkept, -⟩ | ⟨hmeant, -⟩
    · cases hkept
    · exact hmeant.1 rfl

end P4Linux.Hget
