import Mathlib.Tactic.Common
import P4Linux.Hget.Http

/-!
# The boundary between headers and body

* `walk_buf`, `walk_rounds` -- the header walk takes out every NUL it puts in, and it never wants
  more rounds than the buffer has bytes;
* `parseHeaders_ok` -- what an accepted buffer becomes;
* `Streams` -- what a read is taken to do: it hands on the next bytes of the stream;
* `readLoop_ends` -- the buffer holds what was read so far, in order;
* `readHeaders_boundary` -- **no byte is lost, doubled or changed** where the headers end.
-/

namespace P4Linux.Hget

open C Proc

/-! ## 1. Buffers -/

theorem getElem?_of_prefix {a : UInt8} {pat l : List UInt8} {i : Nat} (h : a :: pat <+: l.drop i) :
    l[i]? = some a := by
  obtain ⟨t, ht⟩ := h
  rw [← Nat.add_zero i, ← List.getElem?_drop, ← ht]
  rfl

/-- A NUL in a place that held `a`, taken out again. -/
theorem set_restore {a b : UInt8} {l : List UInt8} {i : Nat} (h : l[i]? = some a) :
    (l.set i b).set i a = l := by
  obtain ⟨hi, rfl⟩ := List.getElem?_eq_some_iff.mp h
  rw [List.set_set, List.set_getElem_self]

theorem cstr_prefix (l : List UInt8) : cstr l <+: l := List.takeWhile_prefix _

/-- Where `strstr` finds its pattern, the array has the pattern. -/
theorem strstr_some {buf pat : List UInt8} {off i : Nat} (h : strstr buf off pat = some i) :
    off ≤ i ∧ pat <+: buf.drop i := by
  unfold strstr at h
  obtain ⟨k, hk, rfl⟩ := Option.map_eq_some_iff.mp h
  refine ⟨Nat.le_add_left _ _, (find_some hk).1.trans ?_⟩
  rw [Nat.add_comm, ← List.drop_drop]
  obtain ⟨t, ht⟩ := cstr_prefix (buf.drop off)
  nth_rewrite 2 [← ht]
  rw [List.drop_append]
  exact List.prefix_append _ _

theorem length_store {buf data : List UInt8} {off : Nat} (h : off + data.length ≤ buf.length) :
    (store buf off data).length = buf.length := by
  unfold store
  rw [List.length_append, List.length_append, List.length_take, List.length_drop]
  omega

theorem take_store {buf data : List UInt8} {off : Nat} (h : off + data.length ≤ buf.length) :
    (store buf off data).take (off + data.length) = buf.take off ++ data := by
  unfold store
  refine List.take_left' ?_
  rw [List.length_append, List.length_take, Nat.min_eq_left (by omega)]

/-! ## 2. The walk -/

/-- **Every CR the walk overwrites is back in its place.** -/
theorem walk_buf (n : Nat) (line : Option Nat) (buf : List UInt8) (r : Resp) :
    (walk n line buf r).1 = buf := by
  induction n generalizing line r with
  | zero => rfl
  | succ n ih =>
    cases line with
    | none => rfl
    | some line =>
      unfold walk
      dsimp only
      cases hnext : strstr buf (line + 2) crlf with
      | none => rfl
      | some i =>
        have hcr : buf[i]? = some 13 := getElem?_of_prefix (strstr_some hnext).2
        dsimp only
        rw [set_restore hcr]
        exact ih _ _

@[simp] theorem headerLine_bodyOff (r : Resp) (line : List UInt8) :
    (headerLine r line).bodyOff = r.bodyOff := by
  unfold headerLine
  dsimp only
  repeat' split
  all_goals rfl

@[simp] theorem headerLine_bodyLen (r : Resp) (line : List UInt8) :
    (headerLine r line).bodyLen = r.bodyLen := by
  unfold headerLine
  dsimp only
  repeat' split
  all_goals rfl

/-- The header lines say nothing about where the body lies. -/
theorem walk_body (n : Nat) (line : Option Nat) (buf : List UInt8) (r : Resp) :
    (walk n line buf r).2.bodyOff = r.bodyOff ∧ (walk n line buf r).2.bodyLen = r.bodyLen := by
  induction n generalizing line buf r with
  | zero => exact ⟨rfl, rfl⟩
  | succ n ih =>
    cases line with
    | none => exact ⟨rfl, rfl⟩
    | some line =>
      unfold walk
      dsimp only
      cases hnext : strstr buf (line + 2) crlf with
      | none => exact ⟨headerLine_bodyOff _ _, headerLine_bodyLen _ _⟩
      | some i =>
        obtain ⟨h1, h2⟩ := ih (some i) ((buf.set i 0).set i 13)
          (headerLine r (cstr ((buf.set i 0).drop (line + 2))))
        exact ⟨h1.trans (headerLine_bodyOff _ _), h2.trans (headerLine_bodyLen _ _)⟩

/-- A round moves the walk on by two bytes at least, so it stops inside the buffer: with half as many
    rounds as there are bytes, more rounds change nothing. -/
theorem walk_rounds {n m line : Nat} {buf : List UInt8} (r : Resp) (hl : line + 2 ≤ buf.length)
    (hn : buf.length < line + 2 * n) (hm : buf.length < line + 2 * m) :
    walk n (some line) buf r = walk m (some line) buf r := by
  induction n generalizing m line r with
  | zero => omega
  | succ n ih =>
    obtain ⟨m, rfl⟩ := Nat.exists_eq_succ_of_ne_zero (show m ≠ 0 by omega)
    unfold walk
    dsimp only
    cases hnext : strstr buf (line + 2) crlf with
    | none => rfl
    | some i =>
      obtain ⟨hle, hpre⟩ := strstr_some hnext
      have hcr : buf[i]? = some 13 := getElem?_of_prefix hpre
      have hlen := hpre.length_le
      rw [List.length_drop, crlf, List.length_cons, List.length_cons, List.length_nil] at hlen
      dsimp only
      rw [set_restore hcr]
      exact ih _ (by omega) (by omega) (by omega)

/-- What `read_headers` returns `EX_OK` with: the buffer is as the reads filled it. -/
theorem parseHeaders_ok {buf buf' : List UInt8} {have' i : Nat} {r : Resp}
    (hi : memmem buf have' crlf2 = some i) (h : parseHeaders buf have' i = (.ok, r, buf')) :
    i + 4 ≤ have' ∧ r.bodyOff = i + 4 ∧ r.bodyLen = have' - (i + 4) ∧ buf' = buf.set have' 0 := by
  have hpre := (find_some hi).1
  have hlen := hpre.length_le
  rw [List.length_drop, List.length_take, crlf2, List.length_cons, List.length_cons, List.length_cons,
    List.length_cons, List.length_nil] at hlen
  have hcr : (buf.set have' 0)[i]? = some 13 := by
    have h13 : (buf.take have')[i]? = some 13 := getElem?_of_prefix hpre
    rw [List.getElem?_take_of_lt (by omega)] at h13
    rw [List.getElem?_set_ne (by omega)]
    exact h13
  unfold parseHeaders at h
  dsimp only at h
  split at h
  · cases h
  · split at h
    · cases h
    · obtain ⟨-, hr, hb⟩ : Exit.ok = Exit.ok ∧ _ = r ∧ _ = buf' := by
        simpa only [Prod.mk.injEq] using h
      rw [walk_buf, set_restore hcr] at hb
      rw [← hr]
      exact ⟨by omega, (walk_body _ _ _ _).1, (walk_body _ _ _ _).2, hb.symm⟩

/-! ## 3. The reads -/

/-- What is still to come from the connection: a read hands on the next bytes, no more than asked. -/
structure Streams {σ : Type} (p : Peer σ) (rem : σ → List UInt8) : Prop where
  read : ∀ s len data s', Ends (p.read len) s (some data) s' →
    data.length ≤ len ∧ rem s = data ++ rem s'

section

variable {σ : Type} {p : Peer σ} {rem : σ → List UInt8} (hp : Streams p rem)
include hp

/-- Induction on the rounds: the first `have` bytes of the buffer are what was read. -/
theorem readLoop_ends {n have₀ have₁ : Nat} {buf buf' : List UInt8} {seen : Option Nat} {s s' : σ}
    (hbuf : buf.length = hdrbufSize) (hle : have₀ < hdrbufSize)
    (h : Ends (readLoop p n have₀ buf) s (some (buf', have₁, seen)) s') :
    buf'.length = hdrbufSize ∧ have₁ < hdrbufSize ∧
      buf'.take have₁ ++ rem s' = buf.take have₀ ++ rem s ∧
      ∀ i, seen = some i → memmem buf' have₁ crlf2 = some i := by
  induction n generalizing have₀ buf s with
  | zero => exact absurd h not_ends_stuck
  | succ n ih =>
    unfold readLoop at h
    split at h
    · rename_i hroom
      cases hm : memmem buf have₀ crlf2 with
      | some i =>
        rw [hm] at h
        obtain ⟨he, rfl⟩ := ends_pure.mp h
        cases he
        exact ⟨hbuf, hle, rfl, fun j hj => hj ▸ hm⟩
      | none =>
        rw [hm] at h
        obtain ⟨data, t, hr, h⟩ := ends_bind.mp h
        cases data with
        | none => cases (ends_pure.mp h).1
        | some data =>
          obtain ⟨hlen, hrem⟩ := hp.read _ _ _ _ hr
          cases data with
          | nil =>
            obtain ⟨he, rfl⟩ := ends_pure.mp h
            cases he
            exact ⟨hbuf, hle, by rw [hrem, List.nil_append], fun j hj => by cases hj⟩
          | cons b data =>
            have hfit : have₀ + (b :: data).length ≤ buf.length := by
              rw [hbuf]
              omega
            obtain ⟨h1, h2, h3, h4⟩ := ih (by rw [length_store hfit, hbuf]) (by omega) h
            refine ⟨h1, h2, ?_, h4⟩
            rw [h3, take_store hfit, hrem, List.append_assoc]
    · obtain ⟨he, rfl⟩ := ends_pure.mp h
      cases he
      exact ⟨hbuf, hle, rfl, fun j hj => by cases hj⟩

/-- **The boundary**: after `EX_OK` the buffer holds the first bytes of the stream unchanged, and the
    pending bytes with what is still to come are what follows the first empty line. -/
theorem readHeaders_boundary {n : Nat} {hdrbuf buf : List UInt8} {r : Resp} {s s' : σ}
    (hbuf : hdrbuf.length = hdrbufSize)
    (h : Ends (readHeaders p n hdrbuf) s (.ok, r, buf) s') :
    ∃ i, find crlf2 (rem s) = some i ∧
      r.pending buf ++ rem s' = (rem s).drop (i + 4) ∧
      buf.take (r.bodyOff + r.bodyLen) = (rem s).take (r.bodyOff + r.bodyLen) ∧
      rem s' = (rem s).drop (r.bodyOff + r.bodyLen) := by
  unfold readHeaders at h
  obtain ⟨res, t, hloop, h⟩ := ends_bind.mp h
  rcases res with _ | ⟨buf₁, have₁, seen⟩
  · cases (ends_pure.mp h).1
  obtain ⟨hlen, hlt, hsplit, hseen⟩ := readLoop_ends hp hbuf (by decide) hloop
  rw [List.take_zero, List.nil_append] at hsplit
  have hmem : seen.or (memmem buf₁ have₁ crlf2) = memmem buf₁ have₁ crlf2 := by
    cases seen with
    | none => rfl
    | some i => rw [hseen i rfl]; rfl
  dsimp only at h
  rw [hmem] at h
  cases hi : memmem buf₁ have₁ crlf2 with
  | none =>
    rw [hi] at h
    cases (ends_pure.mp h).1
  | some i =>
    rw [hi] at h
    obtain ⟨hparse, rfl⟩ := ends_pure.mp h
    obtain ⟨hle, hoff, hbl, hb⟩ := parseHeaders_ok hi hparse
    have hhave : r.bodyOff + r.bodyLen = have₁ := by omega
    have htake : buf.take have₁ = buf₁.take have₁ := by
      rw [hb]
      exact List.take_set_of_le (Nat.le_refl _)
    have hl : (buf₁.take have₁).length = have₁ := by
      rw [List.length_take, hlen]
      omega
    refine ⟨i, ?_, ?_, ?_, ?_⟩
    · rw [← hsplit]
      exact find_append (by decide) hi _
    · unfold Resp.pending
      rw [hoff, hbl, ← List.drop_take, htake, ← hsplit, List.drop_append_of_le_length (by omega)]
    · rw [hhave, htake, ← hsplit, List.take_left' hl]
    · rw [hhave, ← hsplit, List.drop_left' hl]

end

/-! ## 4. A response that trickles in -/

theorem trickle_streams : Streams trickle Prod.fst where
  read s len data s' h := by
    obtain ⟨he, rfl⟩ := Prod.mk.inj (ends_step.mp h)
    cases he
    exact ⟨Nat.le_trans (List.length_take_le _ _) (Nat.min_le_left _ _),
      (List.take_append_drop _ _).symm⟩

/-- `HTTP/1.0 200 CRLF Length:2 CRLF CRLF hi`. -/
def greeting : List UInt8 :=
  [72, 84, 84, 80, 47, 49, 46, 48, 32, 50, 48, 48, 13, 10, 76, 101, 110, 103, 116, 104, 58, 50, 13, 10,
    13, 10, 104, 105]

theorem readHeaders_boundary_greeting :
    ∃ r buf s', Ends (readHeaders trickle 12 (List.replicate hdrbufSize 0)) (greeting, [])
      (.ok, r, buf) s' ∧ ∃ i, find crlf2 greeting = some i ∧
        r.pending buf ++ s'.1 = greeting.drop (i + 4) ∧
        buf.take (r.bodyOff + r.bodyLen) = greeting.take (r.bodyOff + r.bodyLen) ∧
        s'.1 = greeting.drop (r.bodyOff + r.bodyLen) := by
  obtain ⟨⟨e, r, buf⟩, s', h, he⟩ := exists_ends
    (x := readHeaders trickle 12 (List.replicate hdrbufSize 0)) (s := (greeting, []))
    (p := fun a => a.1 = .ok) (by decide +kernel)
  obtain rfl : e = .ok := of_decide_eq_true he
  exact ⟨r, buf, s', h, readHeaders_boundary trickle_streams List.length_replicate h⟩

end P4Linux.Hget
