import P4Linux.Hget.Chain
import P4Linux.Hget.Session

/-!
# Whether a download is complete

* `Complete` -- at least as many bytes of the body as Content-Length says were written;
* `bodyPlain_complete_iff` -- after `EX_OK` that is so if and only if the peer did not close before;
* `fetch_complete`, `complete_iff` -- and so it is with the body that a run of `fetch` delivered.
-/

namespace P4Linux.Hget

open C Proc

/-- At least `length` bytes of `body` were written behind `before`. -/
def Complete (length : Int) (body before after : List UInt8) : Prop :=
  ∃ data, after = before ++ data ∧ data <+: body ∧ length ≤ data.length

/-- What comes after the first empty line of a stream. -/
def bodyBytes (l : List UInt8) : List UInt8 := l.drop ((find crlf2 l).getD l.length + 4)

section

variable {σ : Type} {p : Peer σ} {rem out : σ → List UInt8}

/-- **`EX_OK` from `body_plain`** says nothing about the length: the bytes are all there if and only if the
    peer sent them all. -/
theorem bodyPlain_complete_iff (hp : Flows p rem out) {n : Nat} {s s' : σ} {hdrbuf : List UInt8} {r : Resp}
    {written w : Int} (h : Ends (bodyPlain p n hdrbuf r written) s (.ok, w) s') :
    Complete r.length (r.pending hdrbuf ++ rem s) (out s) (out s') ↔
      r.length ≤ (r.pending hdrbuf ++ rem s).length := by
  constructor
  · intro hcomplete
    obtain ⟨data, -, hpre, hlen⟩ := hcomplete
    have hle := hpre.length_le
    omega
  · exact fun hN => bodyPlain_flows hp hN h

end

section

variable {σ : Type} {sys : Sys σ} {rem : Conn → World σ → List UInt8} {out : Int → World σ → List UInt8}
  {outpath : Option (List UInt8)}

/-- `fetch` wrote the body of the hop to `fd`, from `w₁` to `w₂`. -/
structure Wrote (sys : Sys σ) (outpath : Option (List UInt8)) (hop : Hop σ) (fd : Int) (w₁ w₂ : World σ) :
    Prop where
  opened : Opened sys outpath hop.noted fd w₁
  body : ∃ n written, Ends (body sys n hop.conn hop.resp hop.buf fd) w₁ (.ok, written) w₂

/-- Between the headers and the body nothing is read. -/
theorem rem_opened (hw : Writes sys rem out) {hop : Hop σ} {fd : Int} {w₁ : World σ}
    (h : Opened sys outpath hop.noted fd w₁) (c : Conn) : rem c w₁ = rem c hop.read := by
  have hnoted : rem c hop.noted = rem c hop.read := hw.note (.response hop.resp) c hop.read
  rcases h with ⟨-, rfl⟩ | ⟨path, -, hcreate⟩
  · exact hnoted
  · exact ((hw.create path c).ends hcreate).trans hnoted

/-- What came with the headers and what was still to come then: the body. -/
theorem Last.body_bytes (hr : Receives sys rem) {n : Nat} {hop : Hop σ} {w' : World σ}
    (h : Last sys outpath n hop w') :
    hop.resp.pending hop.buf ++ rem hop.conn hop.read = bodyBytes (rem hop.conn hop.sent) := by
  obtain ⟨hdrbuf, url, w, hbuf, hans⟩ := h.answered
  obtain ⟨i, hi, hbody, -⟩ := readHeaders_boundary (peer_streams hr _ _ _) hbuf hans.headers
  unfold bodyBytes
  rw [hbody, hi]
  rfl

/-- The last hop of a run, and what was written of its body. -/
theorem fetch_complete (hr : Receives sys rem) (hw : Writes sys rem out) {n depth : Nat}
    {hdrbuf url : List UInt8} {w w' : World σ} (hbuf : hdrbuf.length = hdrbufSize)
    (h : Ends (fetch sys n hdrbuf url outpath depth) w .ok w') : ∃ before last fd w₁ w₂,
      Chain sys outpath n hdrbuf url w (before ++ [last]) w' ∧ Wrote sys outpath last fd w₁ w₂ ∧
      (last.resp.chunked = false →
        (Complete last.resp.length (bodyBytes (rem last.conn last.sent)) (out fd w₁) (out fd w₂) ↔
          last.resp.length ≤ (bodyBytes (rem last.conn last.sent)).length)) := by
  obtain ⟨hops, hchain⟩ := fetch_chain h
  obtain ⟨before, last, m, rfl, hlast⟩ := hchain.exists_last hr hbuf
  obtain ⟨fd, w₁, written, w₂, hopened, hbody⟩ := deliver_body hlast.deliver
  refine ⟨before, last, fd, w₁, w₂, hchain, ⟨hopened, m, written, hbody⟩, fun hplain => ?_⟩
  unfold body at hbody
  rw [hplain, if_neg Bool.false_ne_true] at hbody
  have hiff := bodyPlain_complete_iff (peer_flows hr hw m last.conn fd) hbody
  rw [rem_opened hw hopened, hlast.body_bytes hr] at hiff
  exact hiff

/-- **A download that is reported as a success** is complete if and only if at least as many bytes of the
    body as Content-Length says came before the peer closed: in `body_plain`, and in `fetch`. -/
theorem complete_iff (hr : Receives sys rem) (hw : Writes sys rem out) :
    (∀ (n m : Nat) (c : Conn) (fd : Int) (hdrbuf : List UInt8) (r : Resp) (written t : Int) (w w' : World σ),
      Ends (bodyPlain (peer sys n c fd) m hdrbuf r written) w (.ok, t) w' →
      (Complete r.length (r.pending hdrbuf ++ rem c w) (out fd w) (out fd w') ↔
        r.length ≤ (r.pending hdrbuf ++ rem c w).length)) ∧
    ∀ (n depth : Nat) (hdrbuf url : List UInt8) (w w' : World σ), hdrbuf.length = hdrbufSize →
      Ends (fetch sys n hdrbuf url outpath depth) w .ok w' → ∃ before last fd w₁ w₂,
        Chain sys outpath n hdrbuf url w (before ++ [last]) w' ∧ Wrote sys outpath last fd w₁ w₂ ∧
        (last.resp.chunked = false →
          (Complete last.resp.length (bodyBytes (rem last.conn last.sent)) (out fd w₁) (out fd w₂) ↔
            last.resp.length ≤ (bodyBytes (rem last.conn last.sent)).length)) :=
  ⟨fun n _ c fd _ _ _ _ _ _ h => bodyPlain_complete_iff (peer_flows hr hw n c fd) h,
    fun _ _ _ _ _ _ hbuf h => fetch_complete hr hw hbuf h⟩

end

/-! ## 2. A kernel that keeps what was sent and written -/

structure Ledger where
  tape : Tape
  sent : List UInt8
  paper : List UInt8

/-- A call that neither sends nor writes. -/
def Ledger.lift {α : Type} (f : Tape → α × Tape) (s : Ledger) : α × Ledger :=
  ((f s.tape).1, { s with tape := (f s.tape).2 })

def Ledger.kernel : Kernel Ledger where
  getaddrinfo host port := lift (Tape.kernel.getaddrinfo host port)
  socket ai := lift (Tape.kernel.socket ai)
  getfl fd := lift (Tape.kernel.getfl fd)
  setfl fd flags := lift (Tape.kernel.setfl fd flags)
  connect fd ai := lift (Tape.kernel.connect fd ai)
  poll pfd slice := lift (Tape.kernel.poll pfd slice)
  getsockopt fd := lift (Tape.kernel.getsockopt fd)
  setsockopt fd opt v := lift (Tape.kernel.setsockopt fd opt v)
  recv fd len := lift (Tape.kernel.recv fd len)
  send _ buf s := (.ok (min buf.length 40), { s with sent := s.sent ++ buf.take 40 })
  write _ buf s := (.ok buf.length, { s with paper := s.paper ++ buf })
  create path := lift (Tape.kernel.create path)
  close fd := lift (Tape.kernel.close fd)

def Ledger.tls : Tls (World Ledger) where
  init := pure ()
  seed := pure 0
  configDefaults := pure 0
  confAuthmode _ := pure ()
  parseFile _ := pure 0
  confCaChain := pure ()
  confRng := pure ()
  setup := pure 0
  setHostname _ := pure 0
  handshake _ := pure (-1)
  verifyResult := pure 0
  write _ _ := pure (.error (-1))
  read _ _ := pure (.error (-1))
  closeNotify _ := pure 0
  free := pure ()

def Ledger.sys : Sys Ledger := ⟨Ledger.kernel, Ledger.tls, ⟨false, true, 30, [], true⟩⟩

def Ledger.rem (_ : Conn) (w : World Ledger) : List UInt8 := w.kernel.tape.rest

def Ledger.out (_ : Int) (w : World Ledger) : List UInt8 := w.kernel.paper

theorem Ledger.receives : Receives Ledger.sys Ledger.rem where
  recv fd len w data w' h := by
    obtain ⟨he, rfl⟩ := Prod.mk.inj (ends_step.mp h)
    cases he
    refine ⟨List.length_take_le _ _, (List.take_append_drop _ _).symm, fun hnil hlen => ?_⟩
    exact (List.take_eq_nil_iff.mp hnil).resolve_left (by omega)
  interrupted fd len w w' h := by cases (Prod.mk.inj (ends_step.mp h)).1
  read fd len w data w' h := by cases (ends_pure.mp h).1
  again fd len w e w' h he := by
    obtain ⟨-, rfl⟩ := ends_pure.mp h
    rfl
  closed fd len w w' h := by cases (ends_pure.mp h).1

theorem Ledger.writes : Writes Ledger.sys Ledger.rem Ledger.out where
  write fd buf w m w' h := by
    obtain ⟨he, rfl⟩ := Prod.mk.inj (ends_step.mp h)
    cases he
    exact ⟨fun _ => rfl, congrArg (w.kernel.paper ++ ·) (List.take_length).symm⟩
  interrupted fd buf w w' h := by cases (Prod.mk.inj (ends_step.mp h)).1
  recv fd len w res w' g h := by
    obtain ⟨-, rfl⟩ := Prod.mk.inj (ends_step.mp h)
    rfl
  read fd len w res w' g h := by
    obtain ⟨-, rfl⟩ := ends_pure.mp h
    rfl
  create path c := leaves_bind (fun _ => rfl) fun _ => leaves_bind (fun _ => rfl) fun _ => leaves_pure _
  note _ _ _ := rfl

/-- `HTTP/1.1 200 CRLF Content-Length: ` and a digit, CRLF CRLF `hi`. -/
def lengthReply (digit : UInt8) : List UInt8 :=
  [72, 84, 84, 80, 47, 49, 46, 49, 32, 50, 48, 48, 13, 10, 67, 111, 110, 116, 101, 110, 116, 45, 76, 101, 110,
    103, 116, 104, 58, 32, digit, 13, 10, 13, 10, 104, 105]

def Ledger.start (digit : UInt8) : World Ledger := ⟨⟨⟨[0, 1, 2], [lengthReply digit], []⟩, [], []⟩, []⟩

/-- `http://a`, on stdout. -/
def Ledger.run : Proc (World Ledger) Exit :=
  fetch Ledger.sys 9 (List.replicate hdrbufSize 0) (httpScheme ++ [97]) none 0

theorem complete_two : ∃ w', Ends Ledger.run (Ledger.start 50) .ok w' ∧ ∃ before last fd w₁ w₂,
    Chain Ledger.sys none 9 (List.replicate hdrbufSize 0) (httpScheme ++ [97]) (Ledger.start 50)
        (before ++ [last]) w' ∧ Wrote Ledger.sys none last fd w₁ w₂ ∧
      (last.resp.chunked = false →
        (Complete last.resp.length (bodyBytes (Ledger.rem last.conn last.sent)) (Ledger.out fd w₁)
            (Ledger.out fd w₂) ↔
          last.resp.length ≤ (bodyBytes (Ledger.rem last.conn last.sent)).length)) := by
  obtain ⟨rc, w', h, hrc⟩ := exists_ends (x := Ledger.run) (s := Ledger.start 50) (p := fun a => a = .ok)
    (by decide +kernel)
  obtain rfl : rc = .ok := of_decide_eq_true hrc
  exact ⟨w', h, (complete_iff Ledger.receives Ledger.writes).2 _ _ _ _ _ _ List.length_replicate h⟩

/-- Content-Length 5, and the peer closes after `hi`: `EX_OK`, with two bytes. -/
theorem not_complete : (∃ w s', Ends (bodyPlain trickle 20 crlf2 ⟨200, 5, false, [], 4, 0⟩ 0) ([104, 105], [])
      (.ok, w) s' ∧ ¬ Complete 5 ([] ++ [104, 105]) [] s'.2) ∧
    ∃ w', Ends Ledger.run (Ledger.start 53) .ok w' ∧ Ledger.out stdoutFileno w' = [104, 105] := by
  constructor
  · obtain ⟨w, s', h, -⟩ : ∃ w s', Ends (bodyPlain trickle 20 crlf2 ⟨200, 5, false, [], 4, 0⟩ 0) ([104, 105], [])
        (.ok, w) s' ∧ s'.2 = [] ++ [104, 105] :=
      bodyPlain_ends trickle_delivers 0 (by decide) (by decide)
    refine ⟨w, s', h, ?_⟩
    intro hcomplete
    obtain ⟨data, -, hpre, hlen⟩ := hcomplete
    have hle : data.length ≤ 2 := hpre.length_le
    omega
  · have h : (Ledger.run (Ledger.start 53)).1 = some .ok := by decide +kernel
    exact ⟨(Ledger.run (Ledger.start 53)).2, ends_of_fst h, by decide +kernel⟩

end P4Linux.Hget
