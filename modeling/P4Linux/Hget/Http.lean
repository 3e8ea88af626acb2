import P4Linux.Lib.CString
import P4Linux.Lib.Proc

/-!
# hget.c: responses

`read_headers`, `body_chunked` and `body_plain` of `board/hget/hget.c`. `hdrbuf` is the array itself, with
the NULs the header walk writes into it and takes out again; `iobuf` only carries a piece from a read to
the write after it. A loop of the source is a recursion on a number of rounds.

* `Peer` -- what they use of the world: `conn_read` on the connection and `write_all` on the output;
* `walk`, `readHeaders` -- the header lines, and the reads before them;
* `chunkLoop`, `bodyChunked`, `plainLoop`, `bodyPlain` -- the two kinds of body;
* `leaves_readHeaders`, `leaves_bodyPlain`, … -- what the peer leaves alone, they leave alone;
* `chunkLoop_code`, `bodyPlain_code` -- the exit codes a body can end with.
-/

namespace P4Linux.Hget

open C

/-! ## 1. Constants and the world -/

inductive Exit where
  | ok
  | usage
  | url
  | resolve
  | connect
  | tls
  | http
  | io
  | redirect
  | proto
  deriving DecidableEq, Repr

def hdrbufSize : Nat := 8192
def iobufSize : Nat := 16384
def urlbuf : Nat := 2048

/-- `"\r\n"`. -/
def crlf : List UInt8 := [13, 10]

/-- `"\r\n\r\n"`. -/
def crlf2 : List UInt8 := [13, 10, 13, 10]

structure Peer (σ : Type) where
  /-- `conn_read(c, buf, len)`: `none` is -1, no bytes are the end of the stream -/
  read : Nat → Proc σ (Option (List UInt8))
  /-- `write_all(out, buf, len) == 0` -/
  write : List UInt8 → Proc σ Bool

/-- `struct resp`. -/
structure Resp where
  status : Int
  length : Int
  chunked : Bool
  location : List UInt8
  bodyOff : Nat
  bodyLen : Nat
  deriving DecidableEq, Repr

variable {σ : Type} (p : Peer σ)

/-! ## 2. Headers -/

/-- `memcpy(buf + off, data, len)`. -/
def store (buf : List UInt8) (off : Nat) (data : List UInt8) : List UInt8 :=
  buf.take off ++ data ++ buf.drop (off + data.length)

def lower (b : UInt8) : UInt8 := if 65 ≤ b ∧ b ≤ 90 then b - 65 + 97 else b

/-- `ci_prefix`; the end of `s` is its NUL, which no prefix has. -/
def ciPrefix : List UInt8 → List UInt8 → Bool
  | _, [] => true
  | [], _ :: _ => false
  | a :: s, b :: pfx => if lower a ≠ lower b then false else ciPrefix s pfx

def skipWs (s : List UInt8) : List UInt8 := s.dropWhile fun b => b = 32 || b = 9

/-- `"content-length:"`. -/
def contentLength : List UInt8 := [99, 111, 110, 116, 101, 110, 116, 45, 108, 101, 110, 103, 116, 104, 58]

/-- `"transfer-encoding:"`. -/
def transferEncoding : List UInt8 :=
  [116, 114, 97, 110, 115, 102, 101, 114, 45, 101, 110, 99, 111, 100, 105, 110, 103, 58]

/-- `"location:"`. -/
def locationField : List UInt8 := [108, 111, 99, 97, 116, 105, 111, 110, 58]

/-- `"chunked"`. -/
def chunkedName : List UInt8 := [99, 104, 117, 110, 107, 101, 100]

/-- `"HTTP/"`. -/
def httpSlash : List UInt8 := [72, 84, 84, 80, 47]

/-- What one header line, a NUL-terminated string, does to the response. -/
def headerLine (r : Resp) (line : List UInt8) : Resp :=
  if ciPrefix line contentLength then { r with length := atoll (skipWs (line.drop 15)) }
  else if ciPrefix line transferEncoding then
    if (find chunkedName (skipWs (line.drop 18))).isSome then { r with chunked := true } else r
  else if ciPrefix line locationField then
    let v := skipWs (line.drop 9)
    if v.length < urlbuf then { r with location := v } else r
  else r

/-- `while (line)`: `line` is the offset of the CRLF before the next line. -/
def walk : Nat → Option Nat → List UInt8 → Resp → List UInt8 × Resp
  | 0, _, buf, r => (buf, r)
  | _ + 1, none, buf, r => (buf, r)
  | n + 1, some line, buf, r =>
    let line := line + 2
    let next := strstr buf line crlf
    let buf := match next with
      | some i => buf.set i 0
      | none => buf
    let r := headerLine r (cstr (buf.drop line))
    match next with
    | some i => walk n (some i) (buf.set i 13) r
    | none => (buf, r)

/-- `while (have < sizeof(hdrbuf) - 1)`: read until the terminator is there; `none` is a read
    error, else the buffer, `have` and the terminator if the loop saw it. -/
def readLoop : Nat → Nat → List UInt8 → Proc σ (Option (List UInt8 × Nat × Option Nat))
  | 0, _, _ => Proc.stuck
  | n + 1, have', buf =>
    if have' < hdrbufSize - 1 then
      match memmem buf have' crlf2 with
      | some i => pure (some (buf, have', some i))
      | none => do
        match ← p.read (hdrbufSize - 1 - have') with
        | none => pure none
        | some [] => pure (some (buf, have', none))
        | some data => readLoop n (have' + data.length) (store buf have' data)
    else pure (some (buf, have', none))

/-- What `read_headers` makes of a buffer that holds a terminator at `i`. -/
def parseHeaders (buf : List UInt8) (have' i : Nat) : Exit × Resp × List UInt8 :=
  let buf := buf.set have' 0
  let r : Resp := ⟨0, -1, false, [], i + 4, have' - (i + 4)⟩
  if startsWith buf httpSlash = false then (.proto, r, buf)
  else match strchr buf 0 32 with
    | none => (.proto, r, buf)
    | some line =>
      let r := { r with status := atoi (buf.drop (line + 1)) }
      let buf := buf.set i 0
      let (buf, r) := walk buf.length (strstr buf 0 crlf) buf r
      (.ok, r, buf.set i 13)

/-- `read_headers`: the code, the response, and `hdrbuf` as it is left. -/
def readHeaders (n : Nat) (hdrbuf : List UInt8) : Proc σ (Exit × Resp × List UInt8) := do
  let r : Resp := ⟨0, -1, false, [], 0, 0⟩
  match ← readLoop p n 0 hdrbuf with
  | none => pure (.io, r, hdrbuf)
  | some (buf, have', seen) =>
    match seen.or (memmem buf have' crlf2) with
    | none => pure (.proto, r, buf)
    | some i => pure (parseHeaders buf have' i)

/-! ## 3. Bodies -/

/-- The bytes of the body that came with the headers. -/
def Resp.pending (r : Resp) (hdrbuf : List UInt8) : List UInt8 := (hdrbuf.drop r.bodyOff).take r.bodyLen

/-- One byte, from the pending ones or the connection; `none` is `EX_IO`. -/
def nextChar (pend : List UInt8) : Proc σ (Option (UInt8 × List UInt8)) :=
  match pend with
  | ch :: pend => pure (some (ch, pend))
  | [] => do
    match ← p.read 1 with
    | some (ch :: _) => pure (some (ch, []))
    | _ => pure none

/-- The characters of a size line, CRs left out, at most 63 of them. -/
def sizeLine : Nat → List UInt8 → List UInt8 → Proc σ (Option (List UInt8 × List UInt8))
  | 0, _, _ => Proc.stuck
  | n + 1, line, pend => do
    match ← nextChar p pend with
    | none => pure none
    | some (ch, pend) =>
      if ch = 10 then pure (some (line, pend))
      else if ch ≠ 13 ∧ line.length < 63 then sizeLine n (line ++ [ch]) pend
      else sizeLine n line pend

/-- `got` bytes of a chunk into `iobuf`, from the pending ones or the connection. -/
def piece (pend : List UInt8) (want : Nat) : Proc σ (Option (List UInt8 × List UInt8)) :=
  match pend with
  | [] => do
    match ← p.read want with
    | some (b :: data) => pure (some (b :: data, []))
    | _ => pure none
  | pend => pure (some (pend.take want, pend.drop want))

/-- `while (chunk > 0)`: the pending bytes that are left over (`none` is `EX_IO`), and `*written`. -/
def chunkData : Nat → Int → List UInt8 → Int → Proc σ (Option (List UInt8) × Int)
  | 0, _, _, _ => Proc.stuck
  | n + 1, chunk, pend, written =>
    if 0 < chunk then do
      match ← piece p pend (if chunk < iobufSize then chunk.toNat else iobufSize) with
      | none => pure (none, written)
      | some (got, pend) =>
        if ← p.write got then
          chunkData n (chunk - got.length) pend (written + got.length)
        else pure (none, written)
    else pure (some pend, written)

/-- `for (;;)` over the chunks. -/
def chunkLoop : Nat → List UInt8 → Int → Proc σ (Exit × Int)
  | 0, _, _ => Proc.stuck
  | n + 1, pend, written => do
    match ← sizeLine p n [] pend with
    | none => pure (.io, written)
    | some ([], pend) => chunkLoop n pend written -- the CRLF that follows a chunk
    | some (line, pend) =>
      let chunk := strtol 32 16 line
      if chunk ≤ 0 then pure (.ok, written) -- 0 = last chunk
      else
        match ← chunkData p n chunk pend written with
        | (none, written) => pure (.io, written)
        | (some pend, written) => chunkLoop n pend written

def bodyChunked (n : Nat) (hdrbuf : List UInt8) (r : Resp) (written : Int) : Proc σ (Exit × Int) :=
  chunkLoop p n (r.pending hdrbuf) written

/-- `while (remain != 0)`. -/
def plainLoop : Nat → Int → Int → Proc σ (Exit × Int)
  | 0, _, _ => Proc.stuck
  | n + 1, remain, written =>
    if remain ≠ 0 then do
      match ← p.read (if 0 < remain ∧ remain < iobufSize then remain.toNat else iobufSize) with
      | none => pure (.io, written)
      | some [] => pure (.ok, written) -- EOF-delimited body, or short
      | some data =>
        if ← p.write data then
          plainLoop n (if 0 < remain then remain - data.length else remain) (written + data.length)
        else pure (.io, written)
    else pure (.ok, written)

def bodyPlain (n : Nat) (hdrbuf : List UInt8) (r : Resp) (written : Int) : Proc σ (Exit × Int) :=
  match r.pending hdrbuf with
  | [] => plainLoop p n r.length written
  | pend => do
    if ← p.write pend then
      plainLoop p n (if 0 ≤ r.length then r.length - pend.length else r.length) (written + pend.length)
    else pure (.io, written)

/-! ## 4. What the loops leave alone -/

section

open Proc

variable {p} {γ : Type} {v : σ → γ} (hr : ∀ len, Leaves v (p.read len))

include hr

theorem leaves_readLoop (n have' : Nat) (buf : List UInt8) : Leaves v (readLoop p n have' buf) := by
  induction n generalizing have' buf with
  | zero => exact leaves_stuck
  | succ n ih =>
    unfold readLoop
    split
    · cases memmem buf have' crlf2 with
      | some i => exact leaves_pure _
      | none =>
        refine leaves_bind (hr _) fun data => ?_
        rcases data with _ | _ | ⟨b, data⟩
        · exact leaves_pure _
        · exact leaves_pure _
        · exact ih _ _
    · exact leaves_pure _

theorem leaves_readHeaders (n : Nat) (hdrbuf : List UInt8) : Leaves v (readHeaders p n hdrbuf) := by
  refine leaves_bind (leaves_readLoop hr _ _ _) fun res => ?_
  rcases res with _ | ⟨buf, have', seen⟩
  · exact leaves_pure _
  · dsimp only
    cases seen.or (memmem buf have' crlf2) with
    | none => exact leaves_pure _
    | some i => exact leaves_pure _

theorem leaves_nextChar (pend : List UInt8) : Leaves v (nextChar p pend) := by
  cases pend with
  | cons ch pend => exact leaves_pure _
  | nil =>
    refine leaves_bind (hr 1) fun data => ?_
    rcases data with _ | _ | ⟨ch, data⟩ <;> exact leaves_pure _

theorem leaves_sizeLine (n : Nat) (line pend : List UInt8) : Leaves v (sizeLine p n line pend) := by
  induction n generalizing line pend with
  | zero => exact leaves_stuck
  | succ n ih =>
    refine leaves_bind (leaves_nextChar hr pend) fun res => ?_
    rcases res with _ | ⟨ch, pend⟩
    · exact leaves_pure _
    · exact leaves_ite (leaves_pure _) (leaves_ite (ih _ _) (ih _ _))

theorem leaves_piece (pend : List UInt8) (want : Nat) : Leaves v (piece p pend want) := by
  cases pend with
  | cons ch pend => exact leaves_pure _
  | nil =>
    refine leaves_bind (hr want) fun data => ?_
    rcases data with _ | _ | ⟨ch, data⟩ <;> exact leaves_pure _

variable (hw : ∀ data, Leaves v (p.write data))

include hw

theorem leaves_chunkData (n : Nat) (chunk : Int) (pend : List UInt8) (written : Int) :
    Leaves v (chunkData p n chunk pend written) := by
  induction n generalizing chunk pend written with
  | zero => exact leaves_stuck
  | succ n ih =>
    refine leaves_ite (leaves_bind (leaves_piece hr _ _) fun res => ?_) (leaves_pure _)
    rcases res with _ | ⟨got, pend⟩
    · exact leaves_pure _
    · exact leaves_bind (hw got) fun ok => leaves_ite (ih _ _ _) (leaves_pure _)

theorem leaves_chunkLoop (n : Nat) (pend : List UInt8) (written : Int) :
    Leaves v (chunkLoop p n pend written) := by
  induction n generalizing pend written with
  | zero => exact leaves_stuck
  | succ n ih =>
    refine leaves_bind (leaves_sizeLine hr _ _ _) fun res => ?_
    rcases res with _ | ⟨_ | ⟨c, line⟩, pend⟩
    · exact leaves_pure _
    · exact ih _ _
    · refine leaves_ite (leaves_pure _) (leaves_bind (leaves_chunkData hr hw _ _ _ _) fun res => ?_)
      rcases res with ⟨_ | pend, written⟩
      · exact leaves_pure _
      · exact ih _ _

theorem leaves_plainLoop (n : Nat) (remain written : Int) :
    Leaves v (plainLoop p n remain written) := by
  induction n generalizing remain written with
  | zero => exact leaves_stuck
  | succ n ih =>
    refine leaves_ite (leaves_bind (hr _) fun data => ?_) (leaves_pure _)
    rcases data with _ | _ | ⟨b, data⟩
    · exact leaves_pure _
    · exact leaves_pure _
    · exact leaves_bind (hw _) fun ok => leaves_ite (ih _ _) (leaves_pure _)

theorem leaves_bodyPlain (n : Nat) (hdrbuf : List UInt8) (r : Resp) (written : Int) :
    Leaves v (bodyPlain p n hdrbuf r written) := by
  unfold bodyPlain
  cases r.pending hdrbuf with
  | nil => exact leaves_plainLoop hr hw _ _ _
  | cons b pend =>
    exact leaves_bind (hw _) fun ok => leaves_ite (leaves_plainLoop hr hw _ _ _) (leaves_pure _)

end

/-! ## 5. The codes of a body -/

section

open Proc

variable {p} {s s' : σ} {e : Exit} {w : Int}

theorem chunkLoop_code {n : Nat} {pend : List UInt8} {written : Int}
    (h : Ends (chunkLoop p n pend written) s (e, w) s') : e = .ok ∨ e = .io := by
  induction n generalizing pend written s with
  | zero => exact absurd h not_ends_stuck
  | succ n ih =>
    obtain ⟨res, t, -, h⟩ := ends_bind.mp h
    rcases res with _ | ⟨_ | ⟨c, line⟩, pend⟩
    · cases (ends_pure.mp h).1
      exact .inr rfl
    · exact ih h
    · dsimp only at h
      split at h
      · cases (ends_pure.mp h).1
        exact .inl rfl
      · obtain ⟨res, t, -, h⟩ := ends_bind.mp h
        rcases res with ⟨_ | pend, written⟩
        · cases (ends_pure.mp h).1
          exact .inr rfl
        · exact ih h

theorem plainLoop_code {n : Nat} {remain written : Int}
    (h : Ends (plainLoop p n remain written) s (e, w) s') : e = .ok ∨ e = .io := by
  induction n generalizing remain written s with
  | zero => exact absurd h not_ends_stuck
  | succ n ih =>
    unfold plainLoop at h
    split at h
    · obtain ⟨data, t, -, h⟩ := ends_bind.mp h
      rcases data with _ | _ | ⟨b, data⟩
      · cases (ends_pure.mp h).1
        exact .inr rfl
      · cases (ends_pure.mp h).1
        exact .inl rfl
      · obtain ⟨ok, t, -, h⟩ := ends_bind.mp h
        cases ok with
        | true => exact ih h
        | false =>
          cases (ends_pure.mp h).1
          exact .inr rfl
    · cases (ends_pure.mp h).1
      exact .inl rfl

theorem bodyPlain_code {n : Nat} {hdrbuf : List UInt8} {r : Resp} {written : Int}
    (h : Ends (bodyPlain p n hdrbuf r written) s (e, w) s') : e = .ok ∨ e = .io := by
  unfold bodyPlain at h
  split at h
  · exact plainLoop_code h
  · obtain ⟨ok, t, -, h⟩ := ends_bind.mp h
    cases ok with
    | true => exact plainLoop_code h
    | false =>
      cases (ends_pure.mp h).1
      exact .inr rfl

end

/-! ## 6. A connection that trickles -/

/-- What is still to come and what was written; a read gets at most three bytes. -/
def trickle : Peer (List UInt8 × List UInt8) where
  read len := Proc.step fun s => (some (s.1.take (min len 3)), (s.1.drop (min len 3), s.2))
  write data := Proc.step fun s => (true, (s.1, s.2 ++ data))

end P4Linux.Hget
