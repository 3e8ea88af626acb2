import P4Linux.Hget.Http

/-!
# hget.c: the connection

`conn_read`, `conn_write`, `conn_close`, `write_all` and the callbacks of `board/hget/hget.c`. What is
printed on stderr is left out.

* `Kernel`, `Tls` -- the kernel and the TLS library as parameters: a call takes the state of the world
  and returns its result and the next state, and nothing is said about either;
* `Event` -- the log of a run: each `socket`, `open` and `close`, and two marks, where `conn_open`
  succeeded and where a response was accepted as such;
* `connRead`, `connWrite`, `connClose`, `writeAll` -- the functions of the file;
* `Descriptors`, `Tls.Contained` -- a kernel that hands out descriptors as POSIX says, and a TLS library
  that does its input and output through the callbacks only;
* `leaves_connRead`, `leaves_connWrite`, … -- then reads and writes open and close nothing.
-/

namespace P4Linux.Hget

/-! ## 1. The world -/

inductive Errno where
  | eintr
  | eagain
  | einprogress
  | other
  deriving DecidableEq, Repr

/-- `struct addrinfo`. -/
structure AddrInfo where
  family : Int
  socktype : Int
  protocol : Int
  addr : List UInt8
  deriving DecidableEq, Repr

structure Kernel (σ : Type) where
  getaddrinfo : List UInt8 → List UInt8 → σ → Except Int (List AddrInfo) × σ
  socket : AddrInfo → σ → Int × σ
  /-- `fcntl(fd, F_GETFL, 0)` -/
  getfl : Int → σ → BitVec 32 × σ
  /-- `fcntl(fd, F_SETFL, flags)` -/
  setfl : Int → BitVec 32 → σ → Int × σ
  connect : Int → AddrInfo → σ → Except Errno Unit × σ
  /-- `poll(pfd, nfd, slice)` on the descriptors: its result, and the `revents` of each entry -/
  poll : List Int → Int → σ → Except Errno (Int × (Nat → BitVec 16)) × σ
  /-- `getsockopt(fd, SOL_SOCKET, SO_ERROR, &soerr, &slen)`: its result and `soerr` -/
  getsockopt : Int → σ → (Int × Int) × σ
  /-- `setsockopt(fd, SOL_SOCKET, opt, &tv, sizeof(tv))` with `tv` in seconds -/
  setsockopt : Int → Int → Int → σ → Int × σ
  recv : Int → Nat → σ → Except Errno (List UInt8) × σ
  send : Int → List UInt8 → σ → Except Errno Nat × σ
  write : Int → List UInt8 → σ → Except Errno Nat × σ
  /-- `open(path, O_WRONLY | O_CREAT | O_TRUNC, 0644)` -/
  create : List UInt8 → σ → Int × σ
  close : Int → σ → Int × σ

inductive Event where
  | socket (fd : Int)
  | close (fd : Int)
  /-- `conn_open` returned `EX_OK` -/
  | connected (fd : Int)
  /-- `read_headers` returned `EX_OK` -/
  | response (r : Resp)
  /-- `open(outpath)` returned `fd` -/
  | create (path : List UInt8) (fd : Int)
  deriving DecidableEq, Repr

structure World (σ : Type) where
  kernel : σ
  log : List Event

/-- The callbacks given to `mbedtls_ssl_set_bio`. -/
structure Bio (ω : Type) where
  send : List UInt8 → Proc ω Int
  recv : Nat → Proc ω (Except Int (List UInt8))

/-- The functions of mbedTLS that hget calls; the contexts are part of the world. -/
structure Tls (ω : Type) where
  init : Proc ω Unit
  seed : Proc ω Int
  configDefaults : Proc ω Int
  /-- `mbedtls_ssl_conf_authmode`: true for `MBEDTLS_SSL_VERIFY_REQUIRED` -/
  confAuthmode : Bool → Proc ω Unit
  parseFile : List UInt8 → Proc ω Int
  confCaChain : Proc ω Unit
  confRng : Proc ω Unit
  setup : Proc ω Int
  setHostname : List UInt8 → Proc ω Int
  handshake : Bio ω → Proc ω Int
  verifyResult : Proc ω (BitVec 32)
  write : Bio ω → List UInt8 → Proc ω (Except Int Nat)
  read : Bio ω → Nat → Proc ω (Except Int (List UInt8))
  closeNotify : Bio ω → Proc ω Int
  free : Proc ω Unit

structure Options where
  insecure : Bool
  follow : Bool
  timeout : Int
  cafile : List UInt8
  /-- built with `HGET_TLS` -/
  hgetTls : Bool

structure Sys (σ : Type) where
  kernel : Kernel σ
  tls : Tls (World σ)
  opt : Options

variable {σ α : Type}

def call (f : σ → α × σ) : Proc (World σ) α :=
  Proc.step fun w => ((f w.kernel).1, { w with kernel := (f w.kernel).2 })

def note (e : Event) : Proc (World σ) Unit := Proc.step fun w => ((), { w with log := w.log ++ [e] })

variable (sys : Sys σ)

def Sys.socket (ai : AddrInfo) : Proc (World σ) Int := do
  let fd ← call (sys.kernel.socket ai)
  note (.socket fd)
  pure fd

def Sys.create (path : List UInt8) : Proc (World σ) Int := do
  let fd ← call (sys.kernel.create path)
  note (.create path fd)
  pure fd

def Sys.close (fd : Int) : Proc (World σ) Unit := do
  let _ ← call (sys.kernel.close fd)
  note (.close fd)

/-! ## 2. `struct conn` -/

def wantRead : Int := -0x6900
def wantWrite : Int := -0x6880
def peerCloseNotify : Int := -0x7880
def netRecvFailed : Int := -0x004C
def netSendFailed : Int := -0x004E

structure Conn where
  fd : Int
  tls : Bool
  deriving DecidableEq, Repr

def bioSend (fd : Int) (buf : List UInt8) : Proc (World σ) Int := do
  match ← call (sys.kernel.send fd buf) with
  | .error .eagain | .error .eintr => pure wantWrite
  | .error _ => pure netSendFailed
  | .ok n => pure n

def bioRecv (fd : Int) (len : Nat) : Proc (World σ) (Except Int (List UInt8)) := do
  match ← call (sys.kernel.recv fd len) with
  | .error .eagain | .error .eintr => pure (.error wantRead)
  | .error _ => pure (.error netRecvFailed)
  | .ok data => pure (.ok data)

def bio (fd : Int) : Bio (World σ) := ⟨bioSend sys fd, bioRecv sys fd⟩

/-- `conn_write(c, buf, len) == 0`. -/
def connWrite (c : Conn) : Nat → List UInt8 → Proc (World σ) Bool
  | 0, _ => Proc.stuck
  | n + 1, buf =>
    if buf = [] then pure true
    else if c.tls then do
      match ← sys.tls.write (bio sys c.fd) buf with
      | .error e => if e = wantRead ∨ e = wantWrite then connWrite c n buf else pure false
      | .ok 0 => pure false
      | .ok m => connWrite c n (buf.drop m)
    else do
      match ← call (sys.kernel.send c.fd buf) with
      | .error .eintr => connWrite c n buf
      | .error _ => pure false
      | .ok 0 => pure false
      | .ok m => connWrite c n (buf.drop m)

/-- `conn_read`: the bytes, none at the end of the stream; `none` on error. -/
def connRead (c : Conn) : Nat → Nat → Proc (World σ) (Option (List UInt8))
  | 0, _ => Proc.stuck
  | n + 1, len =>
    if c.tls then do
      match ← sys.tls.read (bio sys c.fd) len with
      | .error e =>
        if e = wantRead ∨ e = wantWrite then connRead c n len
        else if e = peerCloseNotify then pure (some [])
        else pure none
      | .ok data => pure (some data)
    else do
      match ← call (sys.kernel.recv c.fd len) with
      | .error .eintr => connRead c n len
      | .error _ => pure none
      | .ok data => pure (some data)

/-- The TLS part of `conn_close`. -/
def tlsClose (c : Conn) : Proc (World σ) Unit :=
  if c.tls then do
    let _ ← sys.tls.closeNotify (bio sys c.fd)
    sys.tls.free
  else pure ()

def connClose (c : Conn) : Proc (World σ) Unit := do
  tlsClose sys c
  if 0 ≤ c.fd then sys.close c.fd

/-- `write_all(fd, buf, len) == 0`. -/
def writeAll (fd : Int) : Nat → List UInt8 → Proc (World σ) Bool
  | 0, _ => Proc.stuck
  | n + 1, buf =>
    if buf = [] then pure true
    else do
      match ← call (sys.kernel.write fd buf) with
      | .error .eintr => writeAll fd n buf
      | .error _ => pure false
      | .ok m => writeAll fd n (buf.drop m)

/-- What the responses are read from and the bodies written to. -/
def peer (n : Nat) (c : Conn) (out : Int) : Peer (World σ) := ⟨connRead sys c n, writeAll sys out n⟩

/-! ## 3. Descriptors -/

/-- How a call that may hand out a descriptor changes the open ones. -/
def HandsOut (fd : Int) (F F' : Set Int) : Prop := if fd < 0 then F' = F else fd ∉ F ∧ F' = insert fd F

theorem le_foldl_max {l : List Int} {a : Int} : a ≤ l.foldl max a ∧ ∀ b ∈ l, b ≤ l.foldl max a := by
  induction l generalizing a with
  | nil => exact ⟨Int.le_refl _, fun _ h => by cases h⟩
  | cons x l ih =>
    obtain ⟨h1, h2⟩ := ih (a := max a x)
    refine ⟨by rw [List.foldl_cons]; omega, fun b hb => ?_⟩
    rw [List.foldl_cons]
    rcases List.mem_cons.mp hb with rfl | hb
    · omega
    · exact h2 b hb

/-- A descriptor above all that are open. -/
theorem handsOut_above (opens : List Int) :
    HandsOut (opens.foldl max 0 + 1) {fd | fd ∈ opens} {fd | fd ∈ (opens.foldl max 0 + 1) :: opens} := by
  obtain ⟨h0, hmax⟩ := le_foldl_max (l := opens) (a := 0)
  rw [HandsOut, if_neg (by omega)]
  refine ⟨fun hm => ?_, ?_⟩
  · have hle := hmax _ hm
    omega
  · ext fd
    exact List.mem_cons

/-- **What a kernel does with descriptors** (`fds`: the open ones): it hands out only what is not
    open, `close` gives one back, and nothing else touches them. -/
structure Descriptors (k : Kernel σ) (fds : σ → Set Int) : Prop where
  socket : ∀ ai s, HandsOut (k.socket ai s).1 (fds s) (fds (k.socket ai s).2)
  create : ∀ path s, HandsOut (k.create path s).1 (fds s) (fds (k.create path s).2)
  close : ∀ fd s, fds (k.close fd s).2 = fds s \ {fd}
  getaddrinfo : ∀ host port s, fds (k.getaddrinfo host port s).2 = fds s
  getfl : ∀ fd s, fds (k.getfl fd s).2 = fds s
  setfl : ∀ fd flags s, fds (k.setfl fd flags s).2 = fds s
  connect : ∀ fd ai s, fds (k.connect fd ai s).2 = fds s
  poll : ∀ pfd slice s, fds (k.poll pfd slice s).2 = fds s
  getsockopt : ∀ fd s, fds (k.getsockopt fd s).2 = fds s
  setsockopt : ∀ fd opt v s, fds (k.setsockopt fd opt v s).2 = fds s
  recv : ∀ fd len s, fds (k.recv fd len s).2 = fds s
  send : ∀ fd buf s, fds (k.send fd buf s).2 = fds s
  write : ∀ fd buf s, fds (k.write fd buf s).2 = fds s

/-- The log and the open descriptors. -/
def seen (fds : σ → Set Int) (w : World σ) : List Event × Set Int := (w.log, fds w.kernel)

structure Bio.Contained (fds : σ → Set Int) (b : Bio (World σ)) : Prop where
  send : ∀ buf, Proc.Leaves (seen fds) (b.send buf)
  recv : ∀ len, Proc.Leaves (seen fds) (b.recv len)

/-- **What mbedTLS does with descriptors**: nothing that its callbacks do not do. -/
structure Tls.Contained (tls : Tls (World σ)) (fds : σ → Set Int) : Prop where
  init : Proc.Leaves (seen fds) tls.init
  seed : Proc.Leaves (seen fds) tls.seed
  configDefaults : Proc.Leaves (seen fds) tls.configDefaults
  confAuthmode : ∀ r, Proc.Leaves (seen fds) (tls.confAuthmode r)
  parseFile : ∀ path, Proc.Leaves (seen fds) (tls.parseFile path)
  confCaChain : Proc.Leaves (seen fds) tls.confCaChain
  confRng : Proc.Leaves (seen fds) tls.confRng
  setup : Proc.Leaves (seen fds) tls.setup
  setHostname : ∀ host, Proc.Leaves (seen fds) (tls.setHostname host)
  verifyResult : Proc.Leaves (seen fds) tls.verifyResult
  free : Proc.Leaves (seen fds) tls.free
  handshake : ∀ b, Bio.Contained fds b → Proc.Leaves (seen fds) (tls.handshake b)
  write : ∀ b, Bio.Contained fds b → ∀ buf, Proc.Leaves (seen fds) (tls.write b buf)
  read : ∀ b, Bio.Contained fds b → ∀ len, Proc.Leaves (seen fds) (tls.read b len)
  closeNotify : ∀ b, Bio.Contained fds b → Proc.Leaves (seen fds) (tls.closeNotify b)

section

variable {sys} {fds : σ → Set Int} (hk : Descriptors sys.kernel fds) (ht : sys.tls.Contained fds)

theorem leaves_call {f : σ → α × σ} (h : ∀ s, fds (f s).2 = fds s) :
    Proc.Leaves (seen fds) (call f) := by
  intro w
  show (w.log, fds (f w.kernel).2) = (w.log, fds w.kernel)
  rw [h]

include hk

theorem leaves_bioSend (fd : Int) (buf : List UInt8) : Proc.Leaves (seen fds) (bioSend sys fd buf) := by
  refine Proc.leaves_bind (leaves_call (hk.send fd buf)) fun r => ?_
  rcases r with (_ | _ | _ | _) | n <;> exact Proc.leaves_pure _

theorem leaves_bioRecv (fd : Int) (len : Nat) : Proc.Leaves (seen fds) (bioRecv sys fd len) := by
  refine Proc.leaves_bind (leaves_call (hk.recv fd len)) fun r => ?_
  rcases r with (_ | _ | _ | _) | n <;> exact Proc.leaves_pure _

theorem bio_contained (fd : Int) : Bio.Contained fds (bio sys fd) :=
  ⟨leaves_bioSend hk fd, leaves_bioRecv hk fd⟩

theorem leaves_writeAll (fd : Int) (n : Nat) (buf : List UInt8) :
    Proc.Leaves (seen fds) (writeAll sys fd n buf) := by
  induction n generalizing buf with
  | zero => exact Proc.leaves_stuck
  | succ n ih =>
    refine Proc.leaves_ite (Proc.leaves_pure _) (Proc.leaves_bind (leaves_call (hk.write fd buf)) ?_)
    intro r
    rcases r with (_ | _ | _ | _) | m
    · exact ih buf
    · exact Proc.leaves_pure _
    · exact Proc.leaves_pure _
    · exact Proc.leaves_pure _
    · exact ih (buf.drop m)

include ht

theorem leaves_connWrite (c : Conn) (n : Nat) (buf : List UInt8) :
    Proc.Leaves (seen fds) (connWrite sys c n buf) := by
  induction n generalizing buf with
  | zero => exact Proc.leaves_stuck
  | succ n ih =>
    refine Proc.leaves_ite (Proc.leaves_pure _) (Proc.leaves_ite (Proc.leaves_bind
      (ht.write _ (bio_contained hk c.fd) buf) ?_) (Proc.leaves_bind (leaves_call (hk.send c.fd buf)) ?_))
    · intro r
      rcases r with e | _ | m
      · exact Proc.leaves_ite (ih buf) (Proc.leaves_pure _)
      · exact Proc.leaves_pure _
      · exact ih _
    · intro r
      rcases r with (_ | _ | _ | _) | _ | m
      · exact ih buf
      · exact Proc.leaves_pure _
      · exact Proc.leaves_pure _
      · exact Proc.leaves_pure _
      · exact Proc.leaves_pure _
      · exact ih _

theorem leaves_connRead (c : Conn) (n len : Nat) : Proc.Leaves (seen fds) (connRead sys c n len) := by
  induction n with
  | zero => exact Proc.leaves_stuck
  | succ n ih =>
    refine Proc.leaves_ite (Proc.leaves_bind (ht.read _ (bio_contained hk c.fd) len) ?_)
      (Proc.leaves_bind (leaves_call (hk.recv c.fd len)) ?_)
    · intro r
      rcases r with e | data
      · exact Proc.leaves_ite ih (Proc.leaves_ite (Proc.leaves_pure _) (Proc.leaves_pure _))
      · exact Proc.leaves_pure _
    · intro r
      rcases r with (_ | _ | _ | _) | data
      · exact ih
      · exact Proc.leaves_pure _
      · exact Proc.leaves_pure _
      · exact Proc.leaves_pure _
      · exact Proc.leaves_pure _

theorem leaves_tlsClose (c : Conn) : Proc.Leaves (seen fds) (tlsClose sys c) :=
  Proc.leaves_ite (Proc.leaves_bind (ht.closeNotify _ (bio_contained hk c.fd)) fun _ => ht.free)
    (Proc.leaves_pure _)

end

end P4Linux.Hget
