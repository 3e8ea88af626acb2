import Mathlib.Tactic.Common
import Mathlib.Data.Set.Insert
import P4Linux.Hget.Sys

/-!
# hget.c: opening a connection

`tcp_connect` and `conn_open` of `board/hget/hget.c`.

* `candidates` -- the addresses to try, the two families in turn;
* `startRace`, `scan`, `race` -- the race of non-blocking connects;
* `closeLosers`, `tcpConnect` -- what is closed after it, and the winner;
* `handshake`, `tlsVerify`, `tlsOpen`, `connOpen` -- the TLS steps after that.
-/

namespace P4Linux.Hget

open Proc

/-! ## 1. The candidates -/

def maxAddrs : Nat := 8
def afInet6 : Int := 10

/-- `fam[0]` (IPv6) and `fam[1]`, the first `MAX_ADDRS` addresses of each. -/
def families (res : List AddrInfo) : List AddrInfo × List AddrInfo :=
  res.foldl (fun fam ai =>
    if ai.family = afInet6 then
      if fam.1.length < maxAddrs then (fam.1 ++ [ai], fam.2) else fam
    else if fam.2.length < maxAddrs then (fam.1, fam.2 ++ [ai]) else fam) ([], [])

/-- `if (slot < nf[f]) sel[nsel++] = fam[f][slot]`, under the loops' `nsel < MAX_ADDRS`. -/
def pick (fam : List AddrInfo) (slot : Nat) (sel : List AddrInfo) : List AddrInfo :=
  if sel.length < maxAddrs then sel ++ (fam[slot]?).toList else sel

def candidates (res : List AddrInfo) : List AddrInfo :=
  let fam := families res
  (List.range maxAddrs).foldl (fun sel slot => pick fam.2 slot (pick fam.1 slot sel)) []

/-! ## 2. `tcp_connect` -/

/-- An entry of `pfd` with its `flags`. -/
structure Racer where
  fd : Int
  flags : BitVec 32
  revents : BitVec 16
  deriving DecidableEq, Repr

def oNonblock : BitVec 32 := 0x800
def pollErrHup : BitVec 16 := 0x18
def soRcvtimeo : Int := 66
def soSndtimeo : Int := 67

variable {σ : Type} (sys : Sys σ)

/-- The loop that starts the connects: the pending ones, and the winner if a connect finished at
    once. -/
def startRace : List AddrInfo → List Racer → Proc (World σ) (List Racer × Option Int)
  | [], pfd => pure (pfd, none)
  | ai :: sel, pfd =>
    if pfd.length < maxAddrs then do
      let fd ← sys.socket ai
      if fd < 0 then startRace sel pfd
      else
        let flags ← call (sys.kernel.getfl fd)
        let _ ← call (sys.kernel.setfl fd (flags ||| oNonblock))
        match ← call (sys.kernel.connect fd ai) with
        | .ok () =>
          let _ ← call (sys.kernel.setfl fd flags)
          pure (pfd, some fd)
        | .error .einprogress => startRace sel (pfd ++ [⟨fd, flags, 0⟩])
        | .error _ =>
          sys.close fd
          startRace sel pfd
    else pure (pfd, none)

/-- `for (i = 0; i < nfd; i++)`, with `nfd - i` rounds to go: a loser is replaced by the last entry. -/
def scan : Nat → Nat → List Racer → Proc (World σ) (List Racer × Option Int)
  | 0, _, pfd => pure (pfd, none)
  | todo + 1, i, pfd =>
    match pfd[i]? with
    | none => pure (pfd, none)
    | some r =>
      if r.revents = 0 then scan todo (i + 1) pfd
      else do
        let (rc, soerr) ← call (sys.kernel.getsockopt r.fd)
        if rc = 0 ∧ soerr = 0 ∧ r.revents &&& pollErrHup = 0 then
          let _ ← call (sys.kernel.setfl r.fd r.flags)
          pure (pfd.set i { r with fd := -1 }, some r.fd)
        else
          sys.close r.fd
          match pfd.getLast? with
          | none => pure (pfd, none)
          | some last => scan todo i (pfd.set i last).dropLast

/-- What `poll` writes into the entries. -/
def withRevents (pfd : List Racer) (revents : Nat → BitVec 16) : List Racer :=
  pfd.mapIdx fun i r => { r with revents := revents i }

/-- `while (winner < 0 && nfd > 0 && deadline_ms > 0)`. -/
def race : Nat → Int → List Racer → Proc (World σ) (List Racer × Option Int)
  | 0, _, _ => Proc.stuck
  | n + 1, deadline, pfd =>
    if pfd ≠ [] ∧ 0 < deadline then do
      let slice := if 1000 < deadline then 1000 else deadline
      let deadline := deadline - slice
      match ← call (sys.kernel.poll (pfd.map (·.fd)) slice) with
      | .error .eintr => race n deadline pfd
      | .error _ => pure (pfd, none)
      | .ok (rc, revents) =>
        if rc = 0 then race n deadline (withRevents pfd revents)
        else
          match ← scan sys pfd.length 0 (withRevents pfd revents) with
          | (pfd, some winner) => pure (pfd, some winner)
          | (pfd, none) => race n deadline pfd
    else pure (pfd, none)

/-- The closing loop. -/
def closeLosers (winner : Option Int) : List Racer → Proc (World σ) Unit
  | [] => pure ()
  | r :: pfd => do
    if 0 ≤ r.fd ∧ some r.fd ≠ winner then sys.close r.fd
    closeLosers winner pfd

/-- `long` arithmetic. -/
def long (x : Int) : Int := x.bmod (2 ^ 32)

/-- Both loops: the racers left and the winner. -/
def runRace (n : Nat) (sel : List AddrInfo) : Proc (World σ) (List Racer × Option Int) := do
  match ← startRace sys sel [] with
  | (pfd, some fd) => pure (pfd, some fd)
  | (pfd, none) => race sys n (long (sys.opt.timeout * 1000)) pfd

/-- Bound every read and write by the timeout. -/
def setTimeouts (fd : Int) : Proc (World σ) Unit := do
  let _ ← call (sys.kernel.setsockopt fd soRcvtimeo sys.opt.timeout)
  let _ ← call (sys.kernel.setsockopt fd soSndtimeo sys.opt.timeout)

/-- `tcp_connect`: the connected descriptor, or the code it returns the negative of. -/
def tcpConnect (n : Nat) (host port : List UInt8) : Proc (World σ) (Except Exit Int) := do
  match ← call (sys.kernel.getaddrinfo host port) with
  | .error _ => pure (.error .resolve)
  | .ok res =>
    let (pfd, winner) ← runRace sys n (candidates res)
    closeLosers sys winner pfd
    match winner with
    | none => pure (.error .connect)
    | some fd =>
      setTimeouts sys fd
      pure (.ok fd)

/-! ## 3. `conn_open` -/

/-- `while ((rc = mbedtls_ssl_handshake(&c->ssl)) != 0)`: true if it came to 0. -/
def handshake (fd : Int) : Nat → Proc (World σ) Bool
  | 0 => Proc.stuck
  | n + 1 => do
    let rc ← sys.tls.handshake (bio sys fd)
    if rc = 0 then pure true
    else if rc = wantRead ∨ rc = wantWrite then handshake fd n
    else pure false

/-- What the certificate is checked against: false where the CA file cannot be read. -/
def tlsVerify : Proc (World σ) Bool :=
  if sys.opt.insecure then do
    sys.tls.confAuthmode false
    pure true
  else do
    if (← sys.tls.parseFile sys.opt.cafile) < 0 then pure false
    else
      sys.tls.confCaChain
      sys.tls.confAuthmode true
      pure true

/-- The steps of `conn_open` under TLS: false where the source goes to `fail`. -/
def tlsOpen (n : Nat) (fd : Int) (host : List UInt8) : Proc (World σ) Bool := do
  sys.tls.init
  if (← sys.tls.seed) ≠ 0 then pure false
  else if (← sys.tls.configDefaults) ≠ 0 then pure false
  else if (← tlsVerify sys) = false then pure false
  else
    sys.tls.confRng
    if (← sys.tls.setup) ≠ 0 then pure false
    else if (← sys.tls.setHostname host) ≠ 0 then pure false
    else if (← handshake sys fd n) = false then pure false
    else
      let flags ← sys.tls.verifyResult
      pure (decide (flags = 0) || sys.opt.insecure)

def connOpen (n : Nat) (host port : List UInt8) (tls : Bool) : Proc (World σ) (Except Exit Conn) := do
  match ← tcpConnect sys n host port with
  | .error rc => pure (.error rc)
  | .ok fd =>
    if tls = false then
      note (.connected fd)
      pure (.ok ⟨fd, tls⟩)
    else if sys.opt.hgetTls = false then
      sys.close fd
      pure (.error .tls)
    else if ← tlsOpen sys n fd host then
      note (.connected fd)
      pure (.ok ⟨fd, tls⟩)
    else
      sys.close fd
      pure (.error .tls)

end P4Linux.Hget
