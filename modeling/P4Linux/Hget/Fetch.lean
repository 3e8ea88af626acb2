import P4Linux.Hget.Connect
import P4Linux.Hget.Url

/-!
# hget.c: `fetch`

The transfer and its redirects.

* `exchange` -- the stretch of `fetch` from the request to the headers;
* `deliver` -- from there to the opening of the output;
* `transfer` -- and from there to the end;
* `fetch` -- one connection after the other, where `depth` counts the redirects.
-/

namespace P4Linux.Hget

open Proc

def maxRedirects : Nat := 8
def stdoutFileno : Int := 1

/-- `sizeof(req)`. -/
def reqbuf : Nat := urlbuf + 512

/-- `"-"`. -/
def dash : List UInt8 := [45]

/-- The condition under which `fetch` takes a response as a redirect. -/
def follows (opt : Options) (r : Resp) : Bool :=
  300 ≤ r.status ∧ r.status < 400 ∧ r.location ≠ [] ∧ opt.follow = true

variable {σ : Type} (sys : Sys σ)

/-- `conn_close(&c); return rc`. -/
def closing (c : Conn) (rc : Exit) : Proc (World σ) Exit := do
  connClose sys c
  pure rc

def body (n : Nat) (c : Conn) (r : Resp) (hdrbuf : List UInt8) (out : Int) :
    Proc (World σ) (Exit × Int) :=
  if r.chunked then bodyChunked (peer sys n c out) n hdrbuf r 0
  else bodyPlain (peer sys n c out) n hdrbuf r 0

/-- The body, written to `out`, and the end of the transfer. -/
def transfer (n : Nat) (c : Conn) (r : Resp) (hdrbuf : List UInt8) (out : Int) :
    Proc (World σ) Exit := do
  let (rc, _) ← body sys n c r hdrbuf out
  if out ≠ stdoutFileno then
    sys.close out
    closing sys c rc
  else closing sys c rc

/-- What `fetch` does with a response that it delivers. -/
def deliver (n : Nat) (c : Conn) (r : Resp) (hdrbuf : List UInt8) (outpath : Option (List UInt8)) :
    Proc (World σ) Exit :=
  match outpath with
  | none => transfer sys n c r hdrbuf stdoutFileno
  | some path =>
    if path = dash then transfer sys n c r hdrbuf stdoutFileno
    else do
      let out ← sys.create path
      if out < 0 then closing sys c .io else transfer sys n c r hdrbuf out

/-- The request and the headers of the response; a failure closes the connection. -/
def exchange (n : Nat) (c : Conn) (u : Url) (hdrbuf : List UInt8) :
    Proc (World σ) (Except Exit (Resp × List UInt8)) := do
  if reqbuf ≤ (request u).length then
    connClose sys c
    pure (.error .url)
  else if (← connWrite sys c n (request u)) = false then
    connClose sys c
    pure (.error .io)
  else
    let (rc, r, hdrbuf) ← readHeaders (peer sys n c stdoutFileno) n hdrbuf
    if rc ≠ .ok then
      connClose sys c
      pure (.error rc)
    else
      note (.response r)
      pure (.ok (r, hdrbuf))

def fetch : Nat → List UInt8 → List UInt8 → Option (List UInt8) → Nat → Proc (World σ) Exit
  | 0, _, _, _, _ => Proc.stuck
  | n + 1, hdrbuf, urlstr, outpath, depth =>
    if maxRedirects < depth then pure .redirect
    else
      match urlParse urlstr with
      | .error rc => pure rc
      | .ok u => do
        match ← connOpen sys n u.host u.port u.tls with
        | .error rc => pure rc
        | .ok c =>
          match ← exchange sys n c u hdrbuf with
          | .error rc => pure rc
          | .ok (r, hdrbuf) =>
            if follows sys.opt r then
              if httpScheme.isPrefixOf r.location || httpsScheme.isPrefixOf r.location then
                connClose sys c
                fetch n hdrbuf r.location outpath (depth + 1)
              else closing sys c .redirect
            else if 400 ≤ r.status then closing sys c .http
            else deliver sys n c r hdrbuf outpath

end P4Linux.Hget
