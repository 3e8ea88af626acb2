import P4Linux.Hget.Http

/-!
# hget.c: URLs

A string is the list of its bytes, none of them NUL.

* `urlHost`, `urlRest`, `urlParse` -- `url_parse` of `board/hget/hget.c`, with its bounds;
* `request` -- the request that `fetch` sends.
-/

namespace P4Linux.Hget

open C

def hostbuf : Nat := 256

/-- `sizeof(u->port)`. -/
def portbuf : Nat := 8

/-- `struct url`. -/
structure Url where
  tls : Bool
  host : List UInt8
  port : List UInt8
  path : List UInt8
  deriving DecidableEq, Repr

/-- `"http://"`. -/
def httpScheme : List UInt8 := [104, 116, 116, 112, 58, 47, 47]

/-- `"https://"`. -/
def httpsScheme : List UInt8 := [104, 116, 116, 112, 115, 58, 47, 47]

/-- The part of `url_parse` that takes the authority `host` apart; `port` is the scheme's. -/
def urlHost (tls : Bool) (port path host : List UInt8) : Except Exit Url :=
  if host.length = 0 ∨ hostbuf ≤ host.length then .error .url
  else if host.head? ≠ some 91 then
    match find [58] host with
    | some colon =>
      if portbuf ≤ (host.drop (colon + 1)).length then .error .url
      else .ok ⟨tls, host.take colon, host.drop (colon + 1), path⟩
    | none => .ok ⟨tls, host, port, path⟩
  else
    match find [93] host with
    | none => .error .url
    | some closeBr =>
      let lit := (host.take closeBr).drop 1
      if host[closeBr + 1]? = some 58 then
        if portbuf ≤ (host.drop (closeBr + 2)).length then .error .url
        else .ok ⟨tls, lit, host.drop (closeBr + 2), path⟩
      else .ok ⟨tls, lit, port, path⟩

/-- The part of `url_parse` after the scheme. -/
def urlRest (tls : Bool) (port p : List UInt8) : Except Exit Url :=
  match find [47] p with
  | some slash =>
    if urlbuf ≤ (p.drop slash).length then .error .url
    else urlHost tls port (p.drop slash) (p.take slash)
  | none => urlHost tls port [47] p

def urlParse (s : List UInt8) : Except Exit Url :=
  if httpScheme.isPrefixOf s then urlRest false [56, 48] (s.drop 7)
  else if httpsScheme.isPrefixOf s then urlRest true [52, 52, 51] (s.drop 8)
  else .error .url

/-- `"GET "`. -/
def reqGet : List UInt8 := [71, 69, 84, 32]

/-- `" HTTP/1.1\r\nHost: "`. -/
def reqHost : List UInt8 :=
  [32, 72, 84, 84, 80, 47, 49, 46, 49, 13, 10, 72, 111, 115, 116, 58, 32]

/-- `"\r\nUser-Agent: hget/1.0\r\nAccept: */*\r\nConnection: close\r\n\r\n"`. -/
def reqTail : List UInt8 :=
  [13, 10, 85, 115, 101, 114, 45, 65, 103, 101, 110, 116, 58, 32, 104, 103, 101, 116, 47, 49, 46, 48,
    13, 10, 65, 99, 99, 101, 112, 116, 58, 32, 42, 47, 42,
    13, 10, 67, 111, 110, 110, 101, 99, 116, 105, 111, 110, 58, 32, 99, 108, 111, 115, 101, 13, 10, 13, 10]

/-- What `snprintf` makes of the format of the request. -/
def request (u : Url) : List UInt8 := reqGet ++ u.path ++ reqHost ++ u.host ++ reqTail

end P4Linux.Hget
