import P4Linux.Hget.Final

/-!
# How long the body is

* `values` -- the values of the fields of one name; `IsDecimal`, `LastChunked` -- what they should say;
* `fields_length`, `fields_chunked` -- what the walk makes of them: the last Content-Length as `atoll` reads it,
  and `chunked` anywhere in a Transfer-Encoding;
* `framing_iff` -- **the framing follows the fields** if and only if these are `Plain`.
-/

namespace P4Linux.Hget

open C Proc

/-! ## 1. The fields of a block -/

/-- The value of a field of that name, which is in lower case and ends in its colon. -/
def valueOf (name line : List UInt8) : Option (List UInt8) :=
  if (line.take name.length).map lower = name then some (skipWs (line.drop name.length)) else none

def values (name : List UInt8) (lines : List (List UInt8)) : List (List UInt8) := lines.filterMap (valueOf name)

/-- Digits and perhaps white space: the number `n`, if it fits `long long`. -/
def IsDecimal (v : List UInt8) (n : Nat) : Prop :=
  ∃ ds ws, v = ds ++ ws ∧ ds ≠ [] ∧ (∀ b ∈ ds, isDigit 10 b) ∧ (∀ b ∈ ws, b = 32 ∨ b = 9) ∧
    value 10 ds = n ∧ n < 2 ^ 63

/-- Without the white space around it. -/
def trim (v : List UInt8) : List UInt8 := (skipWs (skipWs v).reverse).reverse

/-- The codings of a Transfer-Encoding value, in lower case. -/
def codings (v : List UInt8) : List (List UInt8) :=
  ((v.splitOn 44).map fun c => (trim c).map lower).filter (· ≠ [])

def LastChunked (v : List UInt8) : Prop := (codings v).getLast? = some chunkedName

instance (v : List UInt8) : Decidable (LastChunked v) :=
  inferInstanceAs (Decidable ((codings v).getLast? = some chunkedName))

/-- `gzip , Chunked`. -/
example : LastChunked [103, 122, 105, 112, 32, 44, 32, 67, 104, 117, 110, 107, 101, 100] := by decide

/-- **What the response says about its body is what the fields say.** -/
structure Framed (lines : List (List UInt8)) (r : Resp) : Prop where
  chunked : r.chunked = true ↔ ∃ v ∈ values transferEncoding lines, LastChunked v
  length : ∀ n : Nat, r.length = n ↔ ∃ v ∈ values contentLength lines, IsDecimal v n

/-- `strstr(v, "chunked")`. -/
def mentions (v : List UInt8) : Bool := (find chunkedName v).isSome

/-- Fields of which the sloppy reading is the right one. -/
structure Plain (lines : List (List UInt8)) : Prop where
  /-- `chunked` stands in small letters somewhere if and only if it is the last coding somewhere -/
  coding : (∃ v ∈ values transferEncoding lines, mentions v = true) ↔
    ∃ v ∈ values transferEncoding lines, LastChunked v
  /-- what is a decimal number is the number that the last Content-Length begins with, -/
  agree : ∀ v, (values contentLength lines).getLast? = some v →
    ∀ u ∈ values contentLength lines, ∀ n, IsDecimal u n → atoll v = n
  /-- and if that is not negative there is one -/
  number : ∀ v, (values contentLength lines).getLast? = some v → 0 ≤ atoll v →
    ∃ u ∈ values contentLength lines, ∃ n, IsDecimal u n

/-! ## 2. What the walk makes of them -/

theorem ciPrefix_iff {name : List UInt8} (hname : name.map lower = name) (line : List UInt8) :
    ciPrefix line name = true ↔ (line.take name.length).map lower = name := by
  induction name generalizing line with
  | nil => exact ⟨fun _ => rfl, fun _ => by unfold ciPrefix; rfl⟩
  | cons b name ih =>
    obtain ⟨hb, hname⟩ := List.cons.inj hname
    cases line with
    | nil =>
      constructor
      · intro h
        cases h
      · intro h
        cases h
    | cons a line =>
      rw [ciPrefix, List.length_cons, List.take_succ_cons, List.map_cons, List.cons.injEq, ← ih hname, hb]
      by_cases ha : lower a = b
      · rw [if_neg (not_not.mpr ha)]
        exact ⟨fun h => ⟨ha, h⟩, fun h => h.2⟩
      · rw [if_pos ha]
        exact ⟨fun h => (by cases h), fun h => absurd h.1 ha⟩

theorem valueOf_eq {name : List UInt8} (hname : name.map lower = name) (line : List UInt8) :
    valueOf name line = if ciPrefix line name then some (skipWs (line.drop name.length)) else none := by
  unfold valueOf
  by_cases h : ciPrefix line name = true
  · rw [if_pos h, if_pos ((ciPrefix_iff hname line).mp h)]
  · rw [if_neg h, if_neg fun hc => h ((ciPrefix_iff hname line).mpr hc)]

theorem headerLine_length (r : Resp) (line : List UInt8) :
    (headerLine r line).length = ((valueOf contentLength line).map atoll).getD r.length := by
  rw [valueOf_eq (by decide)]
  unfold headerLine
  cases ciPrefix line contentLength with
  | true => rfl
  | false =>
    dsimp only
    repeat' split
    all_goals rfl

/-- A line has one name. -/
theorem ciPrefix_contentLength {line : List UInt8} (h : ciPrefix line contentLength = true) :
    ciPrefix line transferEncoding = false := by
  cases line with
  | nil => cases h
  | cons a line =>
    have ha : lower a = lower 99 := by
      by_contra hne
      unfold contentLength ciPrefix at h
      rw [if_pos hne] at h
      cases h
    unfold transferEncoding ciPrefix
    rw [ha]
    exact if_pos (by decide)

theorem headerLine_chunked (r : Resp) (line : List UInt8) :
    (headerLine r line).chunked = (r.chunked || (valueOf transferEncoding line).any mentions) := by
  rw [valueOf_eq (by decide)]
  unfold headerLine
  cases hlen : ciPrefix line contentLength with
  | true =>
    rw [ciPrefix_contentLength hlen, if_pos rfl, if_neg Bool.false_ne_true]
    exact (Bool.or_false _).symm
  | false =>
    rw [if_neg Bool.false_ne_true]
    cases ciPrefix line transferEncoding with
    | true =>
      rw [if_pos rfl, if_pos rfl]
      show (if mentions (skipWs (line.drop 18)) = true then ({ r with chunked := true } : Resp) else r).chunked =
        (r.chunked || mentions (skipWs (line.drop 18)))
      cases mentions (skipWs (line.drop 18)) with
      | true => exact (Bool.or_true _).symm
      | false => exact (Bool.or_false _).symm
    | false =>
      rw [if_neg Bool.false_ne_true, if_neg Bool.false_ne_true]
      refine Eq.trans ?_ (Bool.or_false _).symm
      split
      · dsimp only
        split <;> rfl
      · rfl

/-- **The length is that of the last Content-Length.** -/
theorem fields_length (lines : List (List UInt8)) (r : Resp) : (lines.foldl headerLine r).length =
    ((values contentLength lines).getLast?.map atoll).getD r.length := by
  induction lines generalizing r with
  | nil => rfl
  | cons line lines ih =>
    rw [List.foldl_cons, ih, headerLine_length, values, values, List.filterMap_cons]
    cases valueOf contentLength line with
    | none => rfl
    | some v =>
      dsimp only
      rw [List.getLast?_cons, Option.map_some, Option.getD_some, Option.map_some, Option.getD_some]
      cases (lines.filterMap (valueOf contentLength)).getLast? with
      | none => rfl
      | some u => rfl

/-- **It is chunked if a Transfer-Encoding mentions it.** -/
theorem fields_chunked (lines : List (List UInt8)) (r : Resp) : (lines.foldl headerLine r).chunked =
    (r.chunked || (values transferEncoding lines).any mentions) := by
  induction lines generalizing r with
  | nil => exact (Bool.or_false _).symm
  | cons line lines ih =>
    rw [List.foldl_cons, ih, headerLine_chunked, values, values, List.filterMap_cons]
    cases valueOf transferEncoding line with
    | none => rw [Option.any_none, Bool.or_false]
    | some v => rw [Option.any_some, List.any_cons, Bool.or_assoc]

/-! ## 3. When that is right -/

theorem framed_iff {lines : List (List UInt8)} {r : Resp}
    (hchunked : r.chunked = (values transferEncoding lines).any mentions)
    (hlength : r.length = ((values contentLength lines).getLast?.map atoll).getD (-1)) :
    Framed lines r ↔ Plain lines := by
  have hmentions : r.chunked = true ↔ ∃ v ∈ values transferEncoding lines, mentions v = true := by
    rw [hchunked, List.any_eq_true]
  have hlast : ∀ v, (values contentLength lines).getLast? = some v → r.length = atoll v := by
    intro v hv
    rw [hlength, hv]
    rfl
  constructor
  · rintro ⟨hc, hl⟩
    refine ⟨hmentions.symm.trans hc, fun v hv u hu n hn => ?_, fun v hv h0 => ?_⟩
    · rw [← hlast v hv]
      exact (hl n).mpr ⟨u, hu, hn⟩
    · have hn : r.length = (atoll v).toNat := by
        rw [hlast v hv]
        omega
      obtain ⟨u, hu, hdec⟩ := (hl _).mp hn
      exact ⟨u, hu, _, hdec⟩
  · rintro ⟨hc, hagree, hnumber⟩
    refine ⟨hmentions.trans hc, fun n => ⟨fun hn => ?_, ?_⟩⟩
    · cases hv : (values contentLength lines).getLast? with
      | none =>
        rw [hlength, hv] at hn
        exact absurd hn (by change ¬ (-1 : Int) = n; omega)
      | some v =>
        have ha := (hlast v hv).symm.trans hn
        obtain ⟨u, hu, m, hm⟩ := hnumber v hv (by omega)
        have hm' := hagree v hv u hu m hm
        obtain rfl : m = n := by omega
        exact ⟨u, hu, hm⟩
    · rintro ⟨u, hu, hn⟩
      obtain ⟨v, hv⟩ : ∃ v, (values contentLength lines).getLast? = some v := by
        rw [← Option.isSome_iff_exists, List.getLast?_isSome]
        exact List.ne_nil_of_mem hu
      rw [hlast v hv]
      exact hagree v hv u hu n hn

/-- `atoll` reads a decimal number that fits. -/
theorem atoll_decimal {v : List UInt8} {n : Nat} (h : IsDecimal v n) : atoll v = n := by
  obtain ⟨ds, ws, rfl, hne, hds, hws, rfl, hlt⟩ := h
  have hstop : ∀ b, ws.head? = some b → isDigit 10 b = false := by
    intro b hb
    rcases hws b (List.mem_of_mem_head? hb) with rfl | rfl
    · rfl
    · rfl
  unfold atoll
  rw [strtol_row hne hds hstop, clamp]
  omega

/-- Content-Length fields that are all one number. -/
theorem plain_of_decimal {lines : List (List UInt8)} {n : Nat}
    (hcoding : (∃ v ∈ values transferEncoding lines, mentions v = true) ↔
      ∃ v ∈ values transferEncoding lines, LastChunked v)
    (h : ∀ v ∈ values contentLength lines, IsDecimal v n) : Plain lines where
  coding := hcoding
  agree v hv u hu m hm := by
    rw [atoll_decimal (h v (List.mem_of_getLast? hv)), ← atoll_decimal (h u hu), atoll_decimal hm]
  number v hv _ := ⟨v, List.mem_of_getLast? hv, n, h v (List.mem_of_getLast? hv)⟩

/-- The header lines of a stream. -/
def headerLines (l : List UInt8) : List (List UInt8) := (splitCrlf (headerBlock l)).tail

/-- **The framing follows the fields** of every response that is accepted, whatever else it says, if and only if
    the fields are plain. -/
theorem framing_iff {σ : Type} {p : Peer σ} {rem : σ → List UInt8} (hp : Streams p rem) {n : Nat}
    {hdrbuf buf : List UInt8} {r : Resp} {s s' : σ} (hbuf : hdrbuf.length = hdrbufSize)
    (h : Ends (readHeaders p n hdrbuf) s (.ok, r, buf) s') (h0 : 0 ∉ headerBlock (rem s)) :
    Framed (headerLines (rem s)) r ↔ Plain (headerLines (rem s)) := by
  obtain ⟨i, t, k, hi, -, -, -, hhead⟩ := readHeaders_parsed hp hbuf h
  have hblock : headerBlock (rem s) = (rem s).take i := by rw [headerBlock, hi]; rfl
  have hlines : fieldLines ((rem s).take i) = headerLines (rem s) := by
    rw [fieldLines, headerLines, ← hblock, cstr_eq_self h0]
  rw [hlines] at hhead
  obtain ⟨-, hlength, hchunked, -⟩ : r.status = _ ∧ r.length = _ ∧ r.chunked = _ ∧ r.location = _ := by
    simpa only [Resp.head, Prod.mk.injEq] using hhead
  exact framed_iff (hchunked.trans (fields_chunked _ _)) (hlength.trans (fields_length _ _))

/-- `HTTP/1.1 200 CRLF Content-Length: 2 CRLF CRLF hi`. -/
def twoBytes : List UInt8 :=
  [72, 84, 84, 80, 47, 49, 46, 49, 32, 50, 48, 48, 13, 10, 67, 111, 110, 116, 101, 110, 116, 45, 76, 101, 110,
    103, 116, 104, 58, 32, 50, 13, 10, 13, 10, 104, 105]

theorem framing_two : ∃ r buf s', Ends (readHeaders trickle 20 (List.replicate hdrbufSize 0)) (twoBytes, [])
    (.ok, r, buf) s' ∧ r.length = 2 ∧ Framed (headerLines twoBytes) r := by
  obtain ⟨⟨e, r, buf⟩, s', h, he⟩ := exists_ends
    (x := readHeaders trickle 20 (List.replicate hdrbufSize 0)) (s := (twoBytes, []))
    (p := fun a => a.1 = .ok ∧ a.2.1.length = 2) (by decide +kernel)
  obtain ⟨rfl, hlen⟩ : e = .ok ∧ r.length = 2 := of_decide_eq_true he
  refine ⟨r, buf, s', h, hlen, ?_⟩
  have hvalues : values contentLength (headerLines twoBytes) = [[50]] := by decide +kernel
  have hnone : values transferEncoding (headerLines twoBytes) = [] := by decide +kernel
  refine (framing_iff trickle_streams List.length_replicate h (by decide +kernel)).mpr
    (plain_of_decimal (n := 2) ?_ fun v hv => ?_)
  · change (∃ v ∈ values transferEncoding (headerLines twoBytes), _) ↔
      ∃ v ∈ values transferEncoding (headerLines twoBytes), _
    rw [hnone]
    exact ⟨fun ⟨v, hv, _⟩ => (by cases hv), fun ⟨v, hv, _⟩ => (by cases hv)⟩
  · change v ∈ values contentLength (headerLines twoBytes) at hv
    rw [hvalues] at hv
    obtain rfl := List.mem_singleton.mp hv
    refine ⟨[50], [], rfl, List.cons_ne_nil _ _, fun b hb => ?_, fun b hb => (by cases hb), rfl, by decide⟩
    obtain rfl := List.mem_singleton.mp hb
    decide

/-- `HTTP/1.1 200 CRLF Content-Length: x CRLF Transfer-Encoding: Chunked CRLF CRLF`. -/
def garbled : List UInt8 :=
  [72, 84, 84, 80, 47, 49, 46, 49, 32, 50, 48, 48, 13, 10, 67, 111, 110, 116, 101, 110, 116, 45, 76, 101, 110,
    103, 116, 104, 58, 32, 120, 13, 10, 84, 114, 97, 110, 115, 102, 101, 114, 45, 69, 110, 99, 111, 100, 105, 110,
    103, 58, 32, 67, 104, 117, 110, 107, 101, 100, 13, 10, 13, 10]

/-- It has no length that is a number, and is chunked: it is taken for an empty body. -/
theorem not_framing : ∃ r buf s', Ends (readHeaders trickle 70 (List.replicate hdrbufSize 0)) (garbled, [])
    (.ok, r, buf) s' ∧ 0 ∉ headerBlock garbled ∧ r.length = 0 ∧ r.chunked = false ∧
      (∀ v ∈ values contentLength (headerLines garbled), ∀ n, ¬ IsDecimal v n) ∧
      (∃ v ∈ values transferEncoding (headerLines garbled), LastChunked v) ∧ ¬ Framed (headerLines garbled) r := by
  obtain ⟨⟨e, r, buf⟩, s', h, he⟩ := exists_ends
    (x := readHeaders trickle 70 (List.replicate hdrbufSize 0)) (s := (garbled, []))
    (p := fun a => a.1 = .ok ∧ a.2.1.length = 0 ∧ a.2.1.chunked = false) (by decide +kernel)
  obtain ⟨rfl, hlen, hchunked⟩ : e = .ok ∧ r.length = 0 ∧ r.chunked = false := of_decide_eq_true he
  have hvalues : values contentLength (headerLines garbled) = [[120]] := by decide +kernel
  have hno : ∀ v ∈ values contentLength (headerLines garbled), ∀ n, ¬ IsDecimal v n := by
    rintro v hv n ⟨ds, ws, he, hne, hds, -⟩
    rw [hvalues] at hv
    obtain rfl := List.mem_singleton.mp hv
    obtain ⟨d, ds, rfl⟩ := List.exists_cons_of_ne_nil hne
    obtain rfl := (List.cons.inj he).1
    exact absurd (hds 120 List.mem_cons_self) (by decide)
  refine ⟨r, buf, s', h, by decide +kernel, hlen, hchunked, hno, by decide +kernel, fun hf => ?_⟩
  obtain ⟨v, hv, hn⟩ := (hf.length 0).mp hlen
  exact hno v hv 0 hn

end P4Linux.Hget
