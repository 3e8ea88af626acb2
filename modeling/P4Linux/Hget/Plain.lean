import P4Linux.Hget.Chunked

/-!
# Plain bodies, and where they end

* `Flows` -- a connection on which anything may fail: what a read hands on are the next bytes, and it
  finds the end only where the peer closed; `Delivers` -- one on which nothing fails;
* `plainLoop_ends`, `plainLoop_rest` -- the loop with a count, and without one;
* `bodyPlain_exact_iff` -- the body is cut at Content-Length unless more than that came with the
  headers;
* `bodyPlain_flows` -- a run that returned `EX_OK` has written what it received.
-/

namespace P4Linux.Hget

open Proc

/-! ## 1. Connections -/

/-- A connection whose peer closes after `rem`, and on which any call may fail. -/
structure Flows {σ : Type} (p : Peer σ) (rem out : σ → List UInt8) : Prop where
  read : ∀ s len res s', Ends (p.read len) s res s' → out s' = out s ∧ ∀ data, res = some data →
    data.length ≤ len ∧ rem s = data ++ rem s' ∧ (data = [] → 0 < len → rem s = [])
  write : ∀ s data s', Ends (p.write data) s true s' → rem s' = rem s ∧ out s' = out s ++ data

/-- A connection whose peer closes after `rem`, on which every call succeeds. -/
structure Delivers {σ : Type} (p : Peer σ) (rem out : σ → List UInt8) : Prop extends
    Serves p rem out where
  eof : ∀ s len, 0 < len → rem s = [] →
    ∃ s', Ends (p.read len) s (some []) s' ∧ rem s' = [] ∧ out s' = out s

section

variable {σ : Type} {p : Peer σ} {rem out : σ → List UInt8}

/-- The length of a read is positive, and no more than what is left of a count. -/
theorem want_bounds {remain : Int} {want : Nat}
    (h : (if 0 < remain ∧ remain < iobufSize then remain.toNat else iobufSize) = want) :
    0 < want ∧ (0 < remain → want ≤ remain.toNat) := by
  unfold iobufSize at h
  split at h
  · omega
  · omega

/-! ## 2. The loop, when nothing fails -/

section

variable (hp : Delivers p rem out)

include hp

/-- Induction on the rounds: with a count, the loop takes no more than is left of it. -/
theorem plainLoop_ends {n : Nat} {s : σ} {remain : Nat} (written : Int) (hn : (rem s).length + 1 < n) :
    ∃ w s', Ends (plainLoop p n remain written) s (.ok, w) s' ∧
      out s' = out s ++ (rem s).take remain := by
  induction n generalizing s remain written with
  | zero => exact absurd hn (Nat.not_lt_zero _)
  | succ n ih =>
    unfold plainLoop
    by_cases h0 : remain = 0
    · rw [if_neg (by omega)]
      refine ⟨written, s, ends_pure.mpr ⟨rfl, rfl⟩, ?_⟩
      rw [h0, List.take_zero, List.append_nil]
    · rw [if_pos (by omega)]
      have hpos : (0 : Int) < remain := by omega
      obtain ⟨want, hwant⟩ : ∃ want, (if (0 : Int) < remain ∧ (remain : Int) < iobufSize
        then (remain : Int).toNat else iobufSize) = want := ⟨_, rfl⟩
      obtain ⟨hwpos, hwle⟩ := want_bounds hwant
      have hwle := hwle hpos
      rw [hwant]
      by_cases hrem : rem s = []
      · obtain ⟨t, ht, -, hout⟩ := hp.eof s want hwpos hrem
        refine ⟨written, t, ht.bind (ends_pure.mpr ⟨rfl, rfl⟩), ?_⟩
        rw [hout, hrem, List.take_nil, List.append_nil]
      · obtain ⟨data, t, ht, hne, hlen, hsplit, hout⟩ := hp.read s want hwpos hrem
        obtain ⟨t', hw, hrem', hout'⟩ := hp.write t data
        have hdata : 0 < data.length := List.length_pos_iff.mpr hne
        have hlt : (rem t').length + 1 < n := by
          rw [hsplit, List.length_append] at hn
          rw [hrem']
          omega
        obtain ⟨w, s', hloop, ho⟩ : ∃ w s', Ends (plainLoop p n (remain - data.length : Nat)
            (written + data.length)) t' (.ok, w) s' ∧
            out s' = out t' ++ (rem t').take (remain - data.length) := ih _ hlt
        refine ⟨w, s', ht.bind ?_, ?_⟩
        · obtain ⟨b, data, rfl⟩ := List.exists_cons_of_ne_nil hne
          refine hw.bind ?_
          rw [if_pos rfl, if_pos hpos]
          have hcast : (remain : Int) - ((b :: data).length : Nat) = ((remain - (b :: data).length : Nat) : Int) := by
            omega
          rw [hcast]
          exact hloop
        · have hall : data.length ≤ remain := by omega
          rw [ho, hout', hout, hrem', hsplit, List.take_append, List.take_of_length_le hall,
            List.append_assoc]

/-- Induction on the rounds: without a count, the loop takes all there is. -/
theorem plainLoop_rest {n : Nat} {s : σ} {remain : Int} (written : Int) (hneg : remain < 0)
    (hn : (rem s).length + 1 < n) :
    ∃ w s', Ends (plainLoop p n remain written) s (.ok, w) s' ∧ out s' = out s ++ rem s := by
  induction n generalizing s written with
  | zero => exact absurd hn (Nat.not_lt_zero _)
  | succ n ih =>
    unfold plainLoop
    rw [if_pos (by omega)]
    obtain ⟨want, hwant⟩ : ∃ want, (if 0 < remain ∧ remain < iobufSize then remain.toNat
      else iobufSize) = want := ⟨_, rfl⟩
    obtain ⟨hwpos, -⟩ := want_bounds hwant
    rw [hwant]
    by_cases hrem : rem s = []
    · obtain ⟨t, ht, -, hout⟩ := hp.eof s want hwpos hrem
      refine ⟨written, t, ht.bind (ends_pure.mpr ⟨rfl, rfl⟩), ?_⟩
      rw [hout, hrem, List.append_nil]
    · obtain ⟨data, t, ht, hne, -, hsplit, hout⟩ := hp.read s want hwpos hrem
      obtain ⟨t', hw, hrem', hout'⟩ := hp.write t data
      have hdata : 0 < data.length := List.length_pos_iff.mpr hne
      have hlt : (rem t').length + 1 < n := by
        rw [hsplit, List.length_append] at hn
        rw [hrem']
        omega
      obtain ⟨w, s', hloop, ho⟩ := ih (written + data.length) hlt
      refine ⟨w, s', ht.bind ?_, ?_⟩
      · obtain ⟨b, data, rfl⟩ := List.exists_cons_of_ne_nil hne
        refine hw.bind ?_
        rw [if_pos rfl, if_neg (by omega)]
        exact hloop
      · rw [ho, hout', hout, hrem', hsplit, List.append_assoc]

/-! ## 3. The body, when nothing fails -/

/-- A body with a length: cut there, or written to its end. -/
theorem bodyPlain_ends {n : Nat} {hdrbuf : List UInt8} {r : Resp} (written : Int) {s : σ}
    (hN : 0 ≤ r.length) (hn : (r.pending hdrbuf ++ rem s).length + 1 < n) :
    ∃ w s', Ends (bodyPlain p n hdrbuf r written) s (.ok, w) s' ∧
      out s' = out s ++ if (r.pending hdrbuf).length ≤ r.length
        then (r.pending hdrbuf ++ rem s).take r.length.toNat else r.pending hdrbuf ++ rem s := by
  rw [List.length_append] at hn
  unfold bodyPlain
  obtain ⟨N, hlen⟩ := Int.eq_ofNat_of_zero_le hN
  rw [hlen]
  cases hpend : r.pending hdrbuf with
  | nil =>
    obtain ⟨w, s', hloop, ho⟩ : ∃ w s', Ends (plainLoop p n N written) s (.ok, w) s' ∧
        out s' = out s ++ (rem s).take N := plainLoop_ends hp written (by omega)
    refine ⟨w, s', hloop, ?_⟩
    rw [if_pos (by rw [List.length_nil]; omega)]
    exact ho
  | cons b pend =>
    rw [hpend] at hn
    obtain ⟨t, hw, hrem, hout⟩ := hp.write s (b :: pend)
    have ht : (rem t).length + 1 < n := by
      rw [hrem]
      omega
    by_cases hle : ((b :: pend).length : Int) ≤ N
    · rw [if_pos hle]
      obtain ⟨w, s', hloop, ho⟩ : ∃ w s', Ends (plainLoop p n (N - (b :: pend).length : Nat)
          (written + (b :: pend).length)) t (.ok, w) s' ∧
          out s' = out t ++ (rem t).take (N - (b :: pend).length) := plainLoop_ends hp _ ht
      refine ⟨w, s', hw.bind ?_, ?_⟩
      · have hcast : (N : Int) - ((b :: pend).length : Nat) = ((N - (b :: pend).length : Nat) : Int) := by
          omega
        rw [if_pos rfl, if_pos (by omega), hcast]
        exact hloop
      · have hall : (b :: pend).length ≤ N := by omega
        rw [ho, hout, hrem, Int.toNat_natCast, List.take_append, List.take_of_length_le hall,
          List.append_assoc]
    · rw [if_neg hle]
      obtain ⟨w, s', hloop, ho⟩ : ∃ w s', Ends (plainLoop p n (N - (b :: pend).length)
          (written + (b :: pend).length)) t (.ok, w) s' ∧ out s' = out t ++ rem t :=
        plainLoop_rest hp _ (by omega) ht
      refine ⟨w, s', hw.bind ?_, ?_⟩
      · rw [if_pos rfl, if_pos (by omega)]
        exact hloop
      · rw [ho, hout, hrem, List.append_assoc]

end

/-- **Content-Length bounds the body** if and only if no more than that came with the headers: else all
    of it is written, and the loop, whose count is negative now, takes it for a body without a
    length. -/
theorem bodyPlain_exact_iff (hp : Delivers p rem out) {n : Nat} {hdrbuf : List UInt8} {r : Resp}
    (written : Int) {s : σ} (hN : 0 ≤ r.length) (hn : (r.pending hdrbuf ++ rem s).length + 1 < n) :
    (∃ e w s', Ends (bodyPlain p n hdrbuf r written) s (e, w) s' ∧
      out s' = out s ++ (r.pending hdrbuf ++ rem s).take r.length.toNat) ↔
    (r.pending hdrbuf).length ≤ r.length := by
  obtain ⟨w, s', h, hout⟩ := bodyPlain_ends hp written hN hn
  constructor
  · rintro ⟨e, w', s'', h', hout'⟩
    by_contra hgt
    obtain ⟨-, rfl⟩ := h.unique h'
    rw [if_neg hgt, hout'] at hout
    have hlen := congrArg List.length (List.append_cancel_left hout)
    rw [List.length_take, List.length_append] at hlen
    omega
  · intro hle
    rw [if_pos hle] at hout
    exact ⟨.ok, w, s', h, hout⟩

/-! ## 4. The body, when anything may fail -/

section

variable (hp : Flows p rem out)

include hp

/-- Induction on the rounds: a run that returned `EX_OK` has written a part of what was to come, and
    left some of it only because its count was used up. -/
theorem plainLoop_flows {n : Nat} {s s' : σ} {remain written w : Int}
    (h : Ends (plainLoop p n remain written) s (.ok, w) s') :
    ∃ data, out s' = out s ++ data ∧ rem s = data ++ rem s' ∧
      (rem s' = [] ∨ 0 ≤ remain ∧ remain ≤ data.length) := by
  induction n generalizing s remain written with
  | zero => exact absurd h not_ends_stuck
  | succ n ih =>
    unfold plainLoop at h
    by_cases h0 : remain = 0
    · rw [if_neg (by omega)] at h
      obtain ⟨-, rfl⟩ := ends_pure.mp h
      exact ⟨[], (List.append_nil _).symm, rfl, .inr ⟨by omega, by rw [List.length_nil]; omega⟩⟩
    · rw [if_pos h0] at h
      obtain ⟨want, hwant⟩ : ∃ want, (if 0 < remain ∧ remain < iobufSize then remain.toNat
        else iobufSize) = want := ⟨_, rfl⟩
      rw [hwant] at h
      obtain ⟨res, t, ht, h⟩ := ends_bind.mp h
      obtain ⟨hout, hdata⟩ := hp.read _ _ _ _ ht
      rcases res with _ | _ | ⟨b, data⟩
      · cases (ends_pure.mp h).1
      · obtain ⟨-, rfl⟩ := ends_pure.mp h
        obtain ⟨-, hrem, hend⟩ := hdata [] rfl
        have hnil := hend rfl (want_bounds hwant).1
        rw [hrem, List.nil_append] at hnil
        exact ⟨[], by rw [hout, List.append_nil], hrem, .inl hnil⟩
      · obtain ⟨hlen, hrem, -⟩ := hdata _ rfl
        obtain ⟨ok, t', hw, h⟩ := ends_bind.mp h
        cases ok with
        | false => cases (ends_pure.mp h).1
        | true =>
          obtain ⟨hrem', hout'⟩ := hp.write _ _ _ hw
          rw [if_pos rfl] at h
          obtain ⟨more, ho, hsplit, hend⟩ := ih h
          refine ⟨b :: data ++ more, ?_, ?_, ?_⟩
          · rw [ho, hout', hout, List.append_assoc]
          · rw [hrem, ← hrem', hsplit, List.append_assoc]
          · refine hend.imp id fun hcount => ?_
            rw [List.length_append]
            split at hcount
            · omega
            · omega

/-- **`EX_OK`** from a body with a length, of whose bytes enough are to come: they were written. -/
theorem bodyPlain_flows {n : Nat} {s s' : σ} {hdrbuf : List UInt8} {r : Resp} {written w : Int}
    (hN : r.length ≤ (r.pending hdrbuf ++ rem s).length)
    (h : Ends (bodyPlain p n hdrbuf r written) s (.ok, w) s') :
    ∃ data, out s' = out s ++ data ∧ data <+: r.pending hdrbuf ++ rem s ∧ r.length ≤ data.length := by
  unfold bodyPlain at h
  cases hpend : r.pending hdrbuf with
  | nil =>
    rw [hpend] at h hN
    obtain ⟨data, ho, hsplit, hend⟩ := plainLoop_flows hp h
    rw [List.nil_append] at hN ⊢
    refine ⟨data, ho, ⟨_, hsplit.symm⟩, ?_⟩
    rcases hend with hnil | ⟨-, hle⟩
    · rw [hnil, List.append_nil] at hsplit
      exact hsplit ▸ hN
    · exact hle
  | cons b pend =>
    rw [hpend] at h hN
    obtain ⟨ok, t, hw, h⟩ := ends_bind.mp h
    cases ok with
    | false => cases (ends_pure.mp h).1
    | true =>
      obtain ⟨hrem, hout⟩ := hp.write _ _ _ hw
      rw [if_pos rfl] at h
      obtain ⟨data, ho, hsplit, hend⟩ := plainLoop_flows hp h
      refine ⟨b :: pend ++ data, ?_, ?_, ?_⟩
      · rw [ho, hout, List.append_assoc]
      · refine ⟨rem s', ?_⟩
        rw [List.append_assoc, ← hsplit, hrem]
      · rw [List.length_append]
        rcases hend with hnil | hcount
        · rw [hnil, List.append_nil, hrem] at hsplit
          rw [← hsplit]
          rw [List.length_append] at hN
          exact hN
        · split at hcount
          · omega
          · omega

end

end

/-! ## 5. A connection that trickles -/

theorem trickle_delivers : Delivers trickle Prod.fst Prod.snd where
  toServes := trickle_serves
  eof s len _ hrem := by
    obtain ⟨rem, out⟩ := s
    obtain rfl : rem = [] := hrem
    exact ⟨([], out), ends_step.mpr (Prod.ext (congrArg some List.take_nil) (Prod.ext List.drop_nil rfl)),
      rfl, rfl⟩

/-- `hello`, of which two bytes came with the headers, and then the next response. -/
theorem bodyPlain_exact_hello : ∃ e w s', Ends (bodyPlain trickle 20 (crlf2 ++ [104, 101])
    ⟨200, 5, false, [], 4, 2⟩ 0) ([108, 108, 111, 72, 84, 84, 80], []) (e, w) s' ∧
      s'.2 = [] ++ [104, 101, 108, 108, 111] :=
  (bodyPlain_exact_iff trickle_delivers 0 (by decide) (by decide)).mpr (by decide)

/-- Content-Length 2, and five bytes came with the headers: all of them are written, and what follows. -/
theorem not_bodyPlain_exact : ¬ ∃ e w s', Ends (bodyPlain trickle 20 (crlf2 ++ [104, 101, 108, 108, 111])
    ⟨200, 2, false, [], 4, 5⟩ 0) ([72, 84, 84, 80], []) (e, w) s' ∧ s'.2 = [] ++ [104, 101] := by
  rintro ⟨e, w, s', h, hout⟩
  obtain ⟨w', t, hrun, ho⟩ : ∃ w s', Ends (bodyPlain trickle 20 (crlf2 ++ [104, 101, 108, 108, 111])
      ⟨200, 2, false, [], 4, 5⟩ 0) ([72, 84, 84, 80], []) (.ok, w) s' ∧
      s'.2 = [] ++ [104, 101, 108, 108, 111, 72, 84, 84, 80] :=
    bodyPlain_ends trickle_delivers 0 (by decide) (by decide)
  obtain ⟨-, rfl⟩ := h.unique hrun
  rw [ho] at hout
  cases hout

end P4Linux.Hget
