import P4Linux.Hget.Plain

/-!
# No response keeps the transfer going forever

* `Dries` -- a stream that is handed out in pieces and then is at its end, or fails, for good;
* `tally` -- the same connection, with its reads counted;
* `Spent` -- a read for each byte it took off the stream: what every loop keeps, up to the one read
  that finds the end;
* `transfer_bounded` -- **the three loops come to their end** after at most one read more than there
  are bytes.
-/

namespace P4Linux.Hget

open Proc C

/-! ## 1. Streams and counts -/

/-- A finite stream, cut into reads of at least one byte, and then its end or an error forever; a write
    succeeds or fails. -/
structure Dries {σ : Type} (p : Peer σ) (rem : σ → List UInt8) : Prop where
  more : ∀ s len, 0 < len → rem s ≠ [] → ∃ b data s', Ends (p.read len) s (some (b :: data)) s' ∧
    rem s = b :: data ++ rem s'
  dry : ∀ s len, rem s = [] → ∃ res s', Ends (p.read len) s res s' ∧ (res = none ∨ res = some []) ∧
    rem s' = []
  write : ∀ s data, ∃ ok s', Ends (p.write data) s ok s' ∧ rem s' = rem s

/-- The connection with a count of the calls of `conn_read`. -/
def tally {σ : Type} (p : Peer σ) : Peer (σ × Nat) where
  read len := fun s => ((p.read len s.1).1, ((p.read len s.1).2, s.2 + 1))
  write data := fun s => ((p.write data s.1).1, ((p.write data s.1).2, s.2))

section

variable {σ : Type} {p : Peer σ} {rem : σ → List UInt8}

theorem tally_read {len : Nat} {s s' : σ} {k : Nat} {res : Option (List UInt8)}
    (h : Ends (p.read len) s res s') : Ends ((tally p).read len) (s, k) res (s', k + 1) := by
  show ((p.read len s).1, ((p.read len s).2, k + 1)) = _
  rw [h]

theorem tally_write {data : List UInt8} {s s' : σ} {k : Nat} {ok : Bool}
    (h : Ends (p.write data) s ok s') : Ends ((tally p).write data) (s, k) ok (s', k) := by
  show ((p.write data s).1, ((p.write data s).2, k)) = _
  rw [h]

/-- From `s` to `s'` there was at most a read for each byte taken off the stream. -/
def Spent (rem : σ → List UInt8) (s s' : σ × Nat) : Prop :=
  s'.2 + (rem s'.1).length ≤ s.2 + (rem s.1).length

/-- The same, but for one read that found no byte. -/
def Over (rem : σ → List UInt8) (s s' : σ × Nat) : Prop := s'.2 ≤ s.2 + (rem s.1).length + 1

theorem Spent.refl (s : σ × Nat) : Spent rem s s := Nat.le_refl _

theorem Spent.trans {s t u : σ × Nat} (h : Spent rem s t) (h' : Spent rem t u) : Spent rem s u :=
  Nat.le_trans h' h

theorem Spent.over {s t u : σ × Nat} (h : Spent rem s t) (h' : Over rem t u) : Over rem s u := by
  unfold Spent at h
  unfold Over at h' ⊢
  omega

theorem Spent.to_over {s t : σ × Nat} (h : Spent rem s t) : Over rem s t := by
  unfold Spent at h
  unfold Over
  omega

/-- What is still to come of a body: the pending bytes and the stream. -/
def left (rem : σ → List UInt8) (pend : List UInt8) (s : σ × Nat) : Nat :=
  pend.length + (rem s.1).length

variable (hp : Dries p rem)
include hp

/-- A read: a piece of the stream, or nothing at its end. -/
theorem Dries.cases (s : σ × Nat) (len : Nat) (hlen : 0 < len) :
    (∃ b data s', Ends ((tally p).read len) s (some (b :: data)) s' ∧ Spent rem s s' ∧
      (rem s'.1).length + (b :: data).length = (rem s.1).length) ∨
    ∃ res s', Ends ((tally p).read len) s res s' ∧ (res = none ∨ res = some []) ∧ Over rem s s' := by
  obtain ⟨s, k⟩ := s
  by_cases hrem : rem s = []
  · obtain ⟨res, s', h, hres, hs'⟩ := hp.dry s len hrem
    refine .inr ⟨res, (s', k + 1), tally_read h, hres, ?_⟩
    show k + 1 ≤ k + (rem s).length + 1
    omega
  · obtain ⟨b, data, s', h, hs'⟩ := hp.more s len hlen hrem
    have hlen := congrArg List.length hs'
    rw [List.length_append, List.length_cons] at hlen
    refine .inl ⟨b, data, (s', k + 1), tally_read h, ?_, ?_⟩
    · show k + 1 + (rem s').length ≤ k + (rem s).length
      omega
    · show (rem s').length + (data.length + 1) = (rem s).length
      omega

theorem Dries.writes (s : σ × Nat) (data : List UInt8) :
    ∃ ok s', Ends ((tally p).write data) s ok s' ∧ Spent rem s s' ∧ (rem s'.1).length = (rem s.1).length := by
  obtain ⟨s, k⟩ := s
  obtain ⟨ok, s', h, hs'⟩ := hp.write s data
  refine ⟨ok, (s', k), tally_write h, ?_, ?_⟩
  · show k + (rem s').length ≤ k + (rem s).length
    rw [hs']
  · show (rem s').length = (rem s).length
    rw [hs']

/-! ## 2. Headers and plain bodies -/

/-- Induction on the rounds: each takes a byte off the stream, or is the last. -/
theorem readLoop_bounded {n : Nat} (have₀ : Nat) (buf : List UInt8) {s : σ × Nat}
    (hn : (rem s.1).length < n) :
    ∃ res s', Ends (readLoop (tally p) n have₀ buf) s res s' ∧ Over rem s s' := by
  induction n generalizing have₀ buf s with
  | zero => omega
  | succ n ih =>
    unfold readLoop
    split
    · cases memmem buf have₀ crlf2 with
      | some i => exact ⟨_, s, ends_pure.mpr ⟨rfl, rfl⟩, (Spent.refl s).to_over⟩
      | none =>
        rcases hp.cases s (hdrbufSize - 1 - have₀) (by omega) with
          ⟨b, data, s', h, hspent, hlen⟩ | ⟨res, s', h, hres, hover⟩
        · rw [List.length_cons] at hlen
          obtain ⟨res, s'', hloop, hover⟩ := ih (have₀ + (b :: data).length)
            (store buf have₀ (b :: data)) (s := s') (by omega)
          exact ⟨res, s'', h.bind hloop, hspent.over hover⟩
        · rcases hres with rfl | rfl
          · exact ⟨_, s', h.bind (ends_pure.mpr ⟨rfl, rfl⟩), hover⟩
          · exact ⟨_, s', h.bind (ends_pure.mpr ⟨rfl, rfl⟩), hover⟩
    · exact ⟨_, s, ends_pure.mpr ⟨rfl, rfl⟩, (Spent.refl s).to_over⟩

theorem readHeaders_bounded {n : Nat} (hdrbuf : List UInt8) {s : σ × Nat} (hn : (rem s.1).length < n) :
    ∃ res s', Ends (readHeaders (tally p) n hdrbuf) s res s' ∧ Over rem s s' := by
  obtain ⟨res, s', hloop, hover⟩ := readLoop_bounded hp 0 hdrbuf hn
  rcases res with _ | ⟨buf, have', seen⟩
  · exact ⟨_, s', hloop.bind (ends_pure.mpr ⟨rfl, rfl⟩), hover⟩
  · cases hseen : seen.or (memmem buf have' crlf2) with
    | none =>
      refine ⟨(.proto, ⟨0, -1, false, [], 0, 0⟩, buf), s', hloop.bind ?_, hover⟩
      dsimp only
      rw [hseen]
      exact ends_pure.mpr ⟨rfl, rfl⟩
    | some i =>
      refine ⟨parseHeaders buf have' i, s', hloop.bind ?_, hover⟩
      dsimp only
      rw [hseen]
      exact ends_pure.mpr ⟨rfl, rfl⟩

/-- Induction on the rounds; the count plays no part, it may be negative or become so. -/
theorem plainLoop_bounded {n : Nat} (remain written : Int) {s : σ × Nat} (hn : (rem s.1).length < n) :
    ∃ res s', Ends (plainLoop (tally p) n remain written) s res s' ∧ Over rem s s' := by
  induction n generalizing remain written s with
  | zero => omega
  | succ n ih =>
    unfold plainLoop
    split
    · have hwant : 0 < if 0 < remain ∧ remain < iobufSize then remain.toNat else iobufSize := (want_bounds rfl).1
      rcases hp.cases s _ hwant with
        ⟨b, data, s', h, hspent, hlen⟩ | ⟨res, s', h, hres, hover⟩
      · rw [List.length_cons] at hlen
        obtain ⟨ok, s₁, hw, hspent₁, hlen₁⟩ := hp.writes s' (b :: data)
        cases ok with
        | false => exact ⟨_, s₁, h.bind (hw.bind (ends_pure.mpr ⟨rfl, rfl⟩)), (hspent.trans hspent₁).to_over⟩
        | true =>
          obtain ⟨res, s₂, hloop, hover⟩ := ih
            (if 0 < remain then remain - (b :: data).length else remain)
            (written + (b :: data).length) (s := s₁) (by omega)
          exact ⟨res, s₂, h.bind (hw.bind hloop), (hspent.trans hspent₁).over hover⟩
      · rcases hres with rfl | rfl
        · exact ⟨_, s', h.bind (ends_pure.mpr ⟨rfl, rfl⟩), hover⟩
        · exact ⟨_, s', h.bind (ends_pure.mpr ⟨rfl, rfl⟩), hover⟩
    · exact ⟨_, s, ends_pure.mpr ⟨rfl, rfl⟩, (Spent.refl s).to_over⟩

theorem bodyPlain_bounded {n : Nat} (hdrbuf : List UInt8) (r : Resp) (written : Int) {s : σ × Nat}
    (hn : (rem s.1).length < n) :
    ∃ res s', Ends (bodyPlain (tally p) n hdrbuf r written) s res s' ∧ Over rem s s' := by
  unfold bodyPlain
  cases r.pending hdrbuf with
  | nil => exact plainLoop_bounded hp _ _ hn
  | cons b pend =>
    obtain ⟨ok, s', hw, hspent, hlen⟩ := hp.writes s (b :: pend)
    cases ok with
    | false => exact ⟨_, s', hw.bind (ends_pure.mpr ⟨rfl, rfl⟩), hspent.to_over⟩
    | true =>
      obtain ⟨res, s'', hloop, hover⟩ := plainLoop_bounded hp
        (if 0 ≤ r.length then r.length - (b :: pend).length else r.length)
        (written + (b :: pend).length) (s := s') (by omega : (rem s'.1).length < n)
      exact ⟨res, s'', hw.bind hloop, hspent.over hover⟩

/-! ## 3. Chunked bodies -/

/-- One byte: it was pending or was read, or there is none. -/
theorem nextChar_bounded (pend : List UInt8) (s : σ × Nat) :
    (∃ ch pend' s', Ends (nextChar (tally p) pend) s (some (ch, pend')) s' ∧ Spent rem s s' ∧
      left rem pend' s' < left rem pend s) ∨
    ∃ s', Ends (nextChar (tally p) pend) s none s' ∧ Over rem s s' := by
  unfold nextChar left
  cases pend with
  | cons ch pend =>
    refine .inl ⟨ch, pend, s, ends_pure.mpr ⟨rfl, rfl⟩, Spent.refl s, ?_⟩
    rw [List.length_cons]
    omega
  | nil =>
    rcases hp.cases s 1 (by omega) with ⟨b, data, s', h, hspent, hlen⟩ | ⟨res, s', h, hres, hover⟩
    · refine .inl ⟨b, [], s', h.bind (ends_pure.mpr ⟨rfl, rfl⟩), hspent, ?_⟩
      rw [List.length_cons] at hlen
      omega
    · rcases hres with rfl | rfl
      · exact .inr ⟨s', h.bind (ends_pure.mpr ⟨rfl, rfl⟩), hover⟩
      · exact .inr ⟨s', h.bind (ends_pure.mpr ⟨rfl, rfl⟩), hover⟩

/-- Induction on the rounds: each takes a character, kept or not. -/
theorem sizeLine_bounded {n : Nat} (line pend : List UInt8) {s : σ × Nat}
    (hn : left rem pend s < n) :
    (∃ line' pend' s', Ends (sizeLine (tally p) n line pend) s (some (line', pend')) s' ∧ Spent rem s s' ∧
      left rem pend' s' < left rem pend s) ∨
    ∃ s', Ends (sizeLine (tally p) n line pend) s none s' ∧ Over rem s s' := by
  induction n generalizing line pend s with
  | zero => omega
  | succ n ih =>
    rcases nextChar_bounded hp pend s with ⟨ch, pend', s', h, hspent, hleft⟩ | ⟨s', h, hover⟩
    · -- every further character leaves as many rounds as bytes
      have hmore : ∀ line₁, (∃ line' pend₁ s₁,
          Ends (sizeLine (tally p) n line₁ pend') s' (some (line', pend₁)) s₁ ∧ Spent rem s s₁ ∧
            left rem pend₁ s₁ < left rem pend s) ∨
          ∃ s₁, Ends (sizeLine (tally p) n line₁ pend') s' none s₁ ∧ Over rem s s₁ := by
        intro line₁
        rcases ih line₁ pend' (s := s') (by omega) with
          ⟨line', pend₁, s₁, h₁, hspent₁, hleft₁⟩ | ⟨s₁, h₁, hover₁⟩
        · exact .inl ⟨line', pend₁, s₁, h₁, hspent.trans hspent₁, by omega⟩
        · exact .inr ⟨s₁, h₁, hspent.over hover₁⟩
      by_cases hlf : ch = 10
      · refine .inl ⟨line, pend', s', h.bind ?_, hspent, hleft⟩
        dsimp only
        rw [if_pos hlf]
        exact ends_pure.mpr ⟨rfl, rfl⟩
      · have hstep : ∃ line₁, (if ch = 10 then pure (some (line, pend'))
            else if ch ≠ 13 ∧ line.length < 63 then sizeLine (tally p) n (line ++ [ch]) pend'
            else sizeLine (tally p) n line pend') = sizeLine (tally p) n line₁ pend' := by
          rw [if_neg hlf]
          split
          · exact ⟨_, rfl⟩
          · exact ⟨_, rfl⟩
        obtain ⟨line₁, hstep⟩ := hstep
        rcases hmore line₁ with ⟨line', pend₁, s₁, h₁, hspent₁, hleft₁⟩ | ⟨s₁, h₁, hover₁⟩
        · refine .inl ⟨line', pend₁, s₁, h.bind ?_, hspent₁, hleft₁⟩
          dsimp only
          rw [hstep]
          exact h₁
        · refine .inr ⟨s₁, h.bind ?_, hover₁⟩
          dsimp only
          rw [hstep]
          exact h₁
    · exact .inr ⟨s', h.bind (ends_pure.mpr ⟨rfl, rfl⟩), hover⟩

/-- A piece of a chunk is at least a byte. -/
theorem piece_bounded (pend : List UInt8) {want : Nat} (hw : 0 < want) (s : σ × Nat) :
    (∃ got pend' s', Ends (piece (tally p) pend want) s (some (got, pend')) s' ∧ Spent rem s s' ∧
      left rem pend' s' < left rem pend s) ∨
    ∃ s', Ends (piece (tally p) pend want) s none s' ∧ Over rem s s' := by
  unfold piece left
  cases pend with
  | cons ch pend =>
    refine .inl ⟨_, _, s, ends_pure.mpr ⟨rfl, rfl⟩, Spent.refl s, ?_⟩
    rw [List.length_drop, List.length_cons]
    omega
  | nil =>
    rcases hp.cases s _ hw with ⟨b, data, s', h, hspent, hlen⟩ | ⟨res, s', h, hres, hover⟩
    · refine .inl ⟨b :: data, [], s', h.bind (ends_pure.mpr ⟨rfl, rfl⟩), hspent, ?_⟩
      rw [List.length_cons] at hlen
      omega
    · rcases hres with rfl | rfl
      · exact .inr ⟨s', h.bind (ends_pure.mpr ⟨rfl, rfl⟩), hover⟩
      · exact .inr ⟨s', h.bind (ends_pure.mpr ⟨rfl, rfl⟩), hover⟩

/-- Induction on the rounds: each takes a piece, or is the last. -/
theorem chunkData_bounded {n : Nat} (chunk : Int) (pend : List UInt8) (written : Int) {s : σ × Nat}
    (hn : left rem pend s < n) :
    (∃ pend' w s', Ends (chunkData (tally p) n chunk pend written) s (some pend', w) s' ∧ Spent rem s s' ∧
      left rem pend' s' ≤ left rem pend s) ∨
    ∃ w s', Ends (chunkData (tally p) n chunk pend written) s (none, w) s' ∧ Over rem s s' := by
  induction n generalizing chunk pend written s with
  | zero => omega
  | succ n ih =>
    unfold chunkData
    split
    · rename_i hpos
      have hwant : 0 < if chunk < iobufSize then chunk.toNat else iobufSize := by
        unfold iobufSize
        split <;> omega
      rcases piece_bounded hp pend hwant s with ⟨got, pend', s', h, hspent, hleft⟩ | ⟨s', h, hover⟩
      · obtain ⟨ok, s₁, hw, hspent₁, hlen₁⟩ := hp.writes s' got
        have hleft₁ : left rem pend' s₁ = left rem pend' s' := by rw [left, hlen₁, left]
        cases ok with
        | false =>
          exact .inr ⟨written, s₁, h.bind (hw.bind (ends_pure.mpr ⟨rfl, rfl⟩)),
            (hspent.trans hspent₁).to_over⟩
        | true =>
          rcases ih (chunk - got.length) pend' (written + got.length) (s := s₁) (by omega) with
            ⟨pend₂, w, s₂, h₂, hspent₂, hleft₂⟩ | ⟨w, s₂, h₂, hover₂⟩
          · exact .inl ⟨pend₂, w, s₂, h.bind (hw.bind h₂), (hspent.trans hspent₁).trans hspent₂, by omega⟩
          · exact .inr ⟨w, s₂, h.bind (hw.bind h₂), (hspent.trans hspent₁).over hover₂⟩
      · exact .inr ⟨written, s', h.bind (ends_pure.mpr ⟨rfl, rfl⟩), hover⟩
    · exact .inl ⟨pend, written, s, ends_pure.mpr ⟨rfl, rfl⟩, Spent.refl s, Nat.le_refl _⟩

/-- Induction on the rounds of the outer loop: a blank line, a last chunk, or a chunk and its data. -/
theorem chunkLoop_bounded {n : Nat} (pend : List UInt8) (written : Int) {s : σ × Nat}
    (hn : left rem pend s + 1 < n) :
    ∃ res s', Ends (chunkLoop (tally p) n pend written) s res s' ∧ Over rem s s' := by
  induction n generalizing pend written s with
  | zero => omega
  | succ n ih =>
    unfold chunkLoop
    rcases sizeLine_bounded hp [] pend (s := s) (n := n) (by omega) with
      ⟨line, pend', s', h, hspent, hleft⟩ | ⟨s', h, hover⟩
    · cases line with
      | nil =>
        obtain ⟨res, s₁, hloop, hover⟩ := ih pend' written (s := s') (by omega)
        exact ⟨res, s₁, h.bind hloop, hspent.over hover⟩
      | cons c line =>
        by_cases hlast : strtol 32 16 (c :: line) ≤ 0
        · refine ⟨(.ok, written), s', h.bind ?_, hspent.to_over⟩
          dsimp only
          rw [if_pos hlast]
          exact ends_pure.mpr ⟨rfl, rfl⟩
        · rcases chunkData_bounded hp (strtol 32 16 (c :: line)) pend' written (s := s') (n := n)
              (by omega) with ⟨pend₁, w, s₁, h₁, hspent₁, hleft₁⟩ | ⟨w, s₁, h₁, hover₁⟩
          · obtain ⟨res, s₂, hloop, hover⟩ := ih pend₁ w (s := s₁) (by omega)
            refine ⟨res, s₂, h.bind ?_, (hspent.trans hspent₁).over hover⟩
            dsimp only
            rw [if_neg hlast]
            exact h₁.bind hloop
          · refine ⟨(.io, w), s₁, h.bind ?_, hspent.over hover₁⟩
            dsimp only
            rw [if_neg hlast]
            exact h₁.bind (ends_pure.mpr ⟨rfl, rfl⟩)
    · exact ⟨(.io, written), s', h.bind (ends_pure.mpr ⟨rfl, rfl⟩), hover⟩

end

/-! ## 4. The bound -/

/-- The program comes to its end in the state `s` after at most `reads` calls of `conn_read`, given
    enough rounds. -/
def EndsWithin {σ α : Type} (x : Nat → Proc (σ × Nat) α) (s : σ) (reads : Nat) : Prop :=
  ∃ N, ∀ n, N ≤ n → ∃ res s' k, Ends (x n) (s, 0) res (s', k) ∧ k ≤ reads

/-- **No response, however malformed, makes the transfer loops run forever**: whatever is still to come
    of the stream, and whatever `read_headers` left behind. -/
theorem transfer_bounded {σ : Type} {p : Peer σ} {rem : σ → List UInt8} (hp : Dries p rem) (s : σ)
    (hdrbuf : List UInt8) (r : Resp) (written : Int) :
    EndsWithin (fun n => readHeaders (tally p) n hdrbuf) s ((rem s).length + 1) ∧
    EndsWithin (fun n => bodyPlain (tally p) n hdrbuf r written) s ((rem s).length + 1) ∧
    EndsWithin (fun n => bodyChunked (tally p) n hdrbuf r written) s ((rem s).length + 1) := by
  have hover : ∀ {s' : σ × Nat}, Over rem (s, 0) s' → s'.2 ≤ (rem s).length + 1 := by
    intro s' h
    have h : s'.2 ≤ 0 + (rem s).length + 1 := h
    omega
  refine ⟨⟨(rem s).length + 1, fun n hn => ?_⟩, ⟨(rem s).length + 1, fun n hn => ?_⟩,
    ⟨(r.pending hdrbuf).length + (rem s).length + 2, fun n hn => ?_⟩⟩
  · obtain ⟨res, s', h, hs⟩ := readHeaders_bounded hp hdrbuf (s := (s, 0)) (n := n) hn
    exact ⟨res, s'.1, s'.2, h, hover hs⟩
  · obtain ⟨res, s', h, hs⟩ := bodyPlain_bounded hp hdrbuf r written (s := (s, 0)) (n := n) hn
    exact ⟨res, s'.1, s'.2, h, hover hs⟩
  · obtain ⟨res, s', h, hs⟩ := chunkLoop_bounded hp (r.pending hdrbuf) written (s := (s, 0)) (n := n)
      (by unfold left; dsimp only; omega)
    exact ⟨res, s'.1, s'.2, h, hover hs⟩

theorem trickle_dries : Dries trickle Prod.fst where
  more s len hlen hrem := by
    obtain ⟨rem, out⟩ := s
    obtain ⟨b, rem, rfl⟩ := List.exists_cons_of_ne_nil hrem
    obtain ⟨m, hm⟩ : ∃ m, min len 3 = m + 1 := ⟨min len 3 - 1, by omega⟩
    refine ⟨b, rem.take m, ((b :: rem).drop (m + 1), out), ends_step.mpr ?_, ?_⟩
    · rw [hm]
      rfl
    · show b :: rem = b :: (rem.take m ++ rem.drop m)
      rw [List.take_append_drop]
  dry s len hrem := by
    obtain ⟨rem, out⟩ := s
    obtain rfl : rem = [] := hrem
    exact ⟨some [], ([], out), ends_step.mpr (Prod.ext (congrArg some List.take_nil)
      (Prod.ext List.drop_nil rfl)), .inr rfl, rfl⟩
  write s data := ⟨true, (s.1, s.2 ++ data), ends_step.mpr rfl, rfl⟩

/-- A negative Content-Length, and a chunk size that no stream can serve. -/
theorem transfer_bounded_trickle :
    EndsWithin (fun n => bodyPlain (tally trickle) n [] ⟨200, -7, false, [], 0, 0⟩ 0)
      ([104, 105], []) 3 ∧
    EndsWithin (fun n => bodyChunked (tally trickle) n [102, 102] ⟨200, -1, true, [], 0, 2⟩ 0)
      ([10, 120], []) 3 :=
  ⟨(transfer_bounded trickle_dries ([104, 105], []) [] ⟨200, -7, false, [], 0, 0⟩ 0).2.1,
    (transfer_bounded trickle_dries ([10, 120], []) [102, 102] ⟨200, -1, true, [], 0, 2⟩ 0).2.2⟩

end P4Linux.Hget
