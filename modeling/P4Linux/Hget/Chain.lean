import P4Linux.Hget.Fetch
import P4Linux.Hget.Fields
import P4Linux.Hget.Transport

/-!
# Chains: the exchanges behind an `EX_OK`

* `readHeaders_parsed` -- what a response says, in the bytes of the connection;
* `Hop`, `Chain` -- a run of `fetch` that delivered a body, taken apart into its exchanges: each hop but
  the last is a redirect that was followed;
* `fetch_chain` -- every run that returned `EX_OK` is one, and of one only (`Chain.unique`);
* `Chain.last`, `deliver_body` -- and has run the body of its last response to `EX_OK`.
-/

namespace P4Linux.Hget

open C Proc

/-! ## 1. What the response of a hop says -/

section

variable {σ : Type} {p : Peer σ} {rem : σ → List UInt8}

/-- **The response in the bytes of the connection**: its fields are those of the header block, its status
    is behind the first space of what was read. -/
theorem readHeaders_parsed (hp : Streams p rem) {n : Nat} {hdrbuf buf : List UInt8} {r : Resp} {s s' : σ}
    (hbuf : hdrbuf.length = hdrbufSize) (h : Ends (readHeaders p n hdrbuf) s (.ok, r, buf) s') :
    ∃ i t k, find crlf2 (rem s) = some i ∧ buf.length = hdrbufSize ∧
      httpSlash.isPrefixOf (cstr ((rem s).take i)) = true ∧
      find [32] (cstr ((rem s).take i ++ 13 :: t)) = some k ∧
      r.head = ((fieldLines ((rem s).take i)).foldl headerLine
        ⟨atoi (((rem s).take i ++ 13 :: t).drop (k + 1)), -1, false, [], 0, 0⟩).head := by
  unfold readHeaders at h
  obtain ⟨res, t, hloop, h⟩ := ends_bind.mp h
  rcases res with _ | ⟨buf₁, have₁, seen⟩
  · cases (ends_pure.mp h).1
  obtain ⟨hlen, hlt, hsplit, hseen⟩ := readLoop_ends hp hbuf (by decide) hloop
  rw [List.take_zero, List.nil_append] at hsplit
  have hmem : seen.or (memmem buf₁ have₁ crlf2) = memmem buf₁ have₁ crlf2 := by
    cases seen with
    | none => rfl
    | some i => rw [hseen i rfl]; rfl
  dsimp only at h
  rw [hmem] at h
  cases hi : memmem buf₁ have₁ crlf2 with
  | none =>
    rw [hi] at h
    cases (ends_pure.mp h).1
  | some i =>
    rw [hi] at h
    obtain ⟨hparse, rfl⟩ := ends_pure.mp h
    have hfind : find crlf2 (rem s) = some i := by
      rw [← hsplit]
      exact find_append (by decide) hi _
    have hle : i + 4 ≤ (buf₁.take have₁).length := (find_le hi).resolve_right (by decide)
    -- what was read is the block, its terminator and perhaps more
    have hblock : (rem s).take i = (buf₁.take have₁).take i := by
      rw [← hsplit, List.take_append_of_le_length (by omega)]
    have hlong : i ≤ ((rem s).take i).length := by
      rw [hblock, List.length_take]
      omega
    obtain ⟨u, hu⟩ := (find_some hi).1
    have htext : buf₁.take have₁ = (rem s).take i ++ 13 :: (10 :: 13 :: 10 :: u) := by
      rw [hblock]
      conv_lhs => rw [← List.take_append_drop i (buf₁.take have₁)]
      rw [← hu]
      rfl
    rw [parseHeaders_eq (by omega) rfl hi, htext, httpSlash_text] at hparse
    refine ⟨i, 10 :: 13 :: 10 :: u, ?_⟩
    cases hpre : httpSlash.isPrefixOf (cstr ((rem s).take i)) with
    | false =>
      rw [hpre, if_pos rfl] at hparse
      cases hparse
    | true =>
      rw [hpre, if_neg (by decide)] at hparse
      cases hk : find [32] (cstr ((rem s).take i ++ 13 :: 10 :: 13 :: 10 :: u)) with
      | none =>
        rw [hk] at hparse
        cases hparse
      | some k =>
        rw [hk] at hparse
        obtain ⟨-, rfl, rfl⟩ : _ ∧ _ = r ∧ _ = buf := by
          simpa only [Prod.mk.injEq] using hparse
        refine ⟨k, hfind, ?_, rfl, rfl, ?_⟩
        · rw [List.length_set, hlen]
        · rw [List.take_append_of_le_length hlong, List.take_take, Nat.min_self]
          exact fields_head rfl

end

section

variable {σ : Type} (sys : Sys σ)

/-! ## 2. Hops -/

/-- A request and the response headers to it. -/
structure Hop (σ : Type) where
  conn : Conn
  /-- when the request was sent, and when the headers were read -/
  sent : World σ
  read : World σ
  resp : Resp
  buf : List UInt8

/-- The world in which `fetch` goes on with the response. -/
def Hop.noted (hop : Hop σ) : World σ := { hop.read with log := hop.read.log ++ [.response hop.resp] }

/-- `fetch` has come to this hop from `w`, with `n` rounds and the buffer `hdrbuf`. -/
structure Answered (n : Nat) (hdrbuf url : List UInt8) (w : World σ) (hop : Hop σ) : Prop where
  request : ∃ u w₁, urlParse url = .ok u ∧ Ends (connOpen sys n u.host u.port u.tls) w (.ok hop.conn) w₁ ∧
    Ends (connWrite sys hop.conn n (request u)) w₁ true hop.sent
  headers : Ends (readHeaders (peer sys n hop.conn stdoutFileno) n hdrbuf) hop.sent
    (.ok, hop.resp, hop.buf) hop.read

/-- The hops of a run that returned `EX_OK`. -/
inductive Chain (outpath : Option (List UInt8)) :
    Nat → List UInt8 → List UInt8 → World σ → List (Hop σ) → World σ → Prop
  | last {n : Nat} {hdrbuf url : List UInt8} {w w' : World σ} {hop : Hop σ} :
      Answered sys n hdrbuf url w hop → follows sys.opt hop.resp = false → hop.resp.status < 400 →
      Ends (deliver sys n hop.conn hop.resp hop.buf outpath) hop.noted .ok w' →
      Chain outpath (n + 1) hdrbuf url w [hop] w'
  | redirect {n : Nat} {hdrbuf url : List UInt8} {w w₁ w' : World σ} {hop : Hop σ} {hops : List (Hop σ)} :
      Answered sys n hdrbuf url w hop → follows sys.opt hop.resp = true →
      Ends (connClose sys hop.conn) hop.noted () w₁ →
      Chain outpath n hop.buf hop.resp.location w₁ hops w' →
      Chain outpath (n + 1) hdrbuf url w (hop :: hops) w'

variable {sys} {outpath : Option (List UInt8)}

theorem exchange_hop {n : Nat} {c : Conn} {u : Url} {hdrbuf buf : List UInt8} {r : Resp} {w w' : World σ}
    (h : Ends (exchange sys n c u hdrbuf) w (.ok (r, buf)) w') : ∃ hop : Hop σ,
      hop.conn = c ∧ hop.resp = r ∧ hop.buf = buf ∧ w' = hop.noted ∧
      Ends (connWrite sys c n (request u)) w true hop.sent ∧
      Ends (readHeaders (peer sys n c stdoutFileno) n hdrbuf) hop.sent (.ok, r, buf) hop.read := by
  unfold exchange at h
  split at h
  · obtain ⟨_, _, -, h⟩ := ends_bind.mp h
    cases (ends_pure.mp h).1
  · obtain ⟨ok, t, hw, h⟩ := ends_bind.mp h
    cases ok with
    | false =>
      obtain ⟨_, _, -, h⟩ := ends_bind.mp h
      cases (ends_pure.mp h).1
    | true =>
      rw [if_neg (by decide)] at h
      obtain ⟨⟨rc, r', buf'⟩, t', hr, h⟩ := ends_bind.mp h
      dsimp only at h
      by_cases hrc : rc = .ok
      · rw [if_neg (not_not_intro hrc)] at h
        obtain ⟨_, t'', hn, h⟩ := ends_bind.mp h
        obtain ⟨he, rfl⟩ := ends_pure.mp h
        cases he
        subst hrc
        exact ⟨⟨c, t, t', r, buf⟩, rfl, rfl, rfl, (congrArg Prod.snd (ends_step.mp hn)).symm, hw, hr⟩
      · rw [if_pos hrc] at h
        obtain ⟨_, _, -, h⟩ := ends_bind.mp h
        cases (ends_pure.mp h).1

/-! ## 3. A failure is not `EX_OK` -/

theorem urlHost_error {tls : Bool} {port path host : List UInt8} {rc : Exit}
    (h : urlHost tls port path host = .error rc) : rc = .url := by
  unfold urlHost at h
  repeat' split at h
  all_goals cases h
  all_goals rfl

theorem urlParse_error {s : List UInt8} {rc : Exit} (h : urlParse s = .error rc) : rc = .url := by
  have hrest : ∀ {tls : Bool} {port p : List UInt8}, urlRest tls port p = .error rc → rc = .url := by
    intro tls port p h
    unfold urlRest at h
    split at h
    · split at h
      · cases h
        rfl
      · exact urlHost_error h
    · exact urlHost_error h
  unfold urlParse at h
  split at h
  · exact hrest h
  · split at h
    · exact hrest h
    · cases h
      rfl

theorem tcpConnect_error {n : Nat} {host port : List UInt8} {rc : Exit} {w w' : World σ}
    (h : Ends (tcpConnect sys n host port) w (.error rc) w') : rc = .resolve ∨ rc = .connect := by
  obtain ⟨res, t, -, h⟩ := ends_bind.mp h
  cases res with
  | error e =>
    cases (ends_pure.mp h).1
    exact .inl rfl
  | ok res =>
    obtain ⟨⟨pfd, winner⟩, t, -, h⟩ := ends_bind.mp h
    obtain ⟨_, t, -, h⟩ := ends_bind.mp h
    cases winner with
    | none =>
      cases (ends_pure.mp h).1
      exact .inr rfl
    | some fd =>
      obtain ⟨_, t, -, h⟩ := ends_bind.mp h
      cases (ends_pure.mp h).1

theorem connOpen_error {n : Nat} {host port : List UInt8} {tls : Bool} {rc : Exit} {w w' : World σ}
    (h : Ends (connOpen sys n host port tls) w (.error rc) w') : rc ≠ .ok := by
  obtain ⟨res, t, hc, h⟩ := ends_bind.mp h
  cases res with
  | error e =>
    cases (ends_pure.mp h).1
    rcases tcpConnect_error hc with rfl | rfl
    · decide
    · decide
  | ok fd =>
    dsimp only at h
    split at h
    · obtain ⟨_, t, -, h⟩ := ends_bind.mp h
      cases (ends_pure.mp h).1
    · split at h
      · obtain ⟨_, t, -, h⟩ := ends_bind.mp h
        cases (ends_pure.mp h).1
        decide
      · obtain ⟨ok, t, -, h⟩ := ends_bind.mp h
        cases ok with
        | true =>
          obtain ⟨_, t, -, h⟩ := ends_bind.mp h
          cases (ends_pure.mp h).1
        | false =>
          obtain ⟨_, t, -, h⟩ := ends_bind.mp h
          cases (ends_pure.mp h).1
          decide

theorem exchange_error {n : Nat} {c : Conn} {u : Url} {hdrbuf : List UInt8} {rc : Exit} {w w' : World σ}
    (h : Ends (exchange sys n c u hdrbuf) w (.error rc) w') : rc ≠ .ok := by
  unfold exchange at h
  split at h
  · obtain ⟨_, t, -, h⟩ := ends_bind.mp h
    cases (ends_pure.mp h).1
    decide
  · obtain ⟨ok, t, -, h⟩ := ends_bind.mp h
    cases ok with
    | false =>
      obtain ⟨_, t, -, h⟩ := ends_bind.mp h
      cases (ends_pure.mp h).1
      decide
    | true =>
      rw [if_neg (by decide)] at h
      obtain ⟨⟨rc', r, buf⟩, t, -, h⟩ := ends_bind.mp h
      dsimp only at h
      by_cases hrc : rc' = .ok
      · rw [if_neg (not_not_intro hrc)] at h
        obtain ⟨_, t, -, h⟩ := ends_bind.mp h
        cases (ends_pure.mp h).1
      · rw [if_pos hrc] at h
        obtain ⟨_, t, -, h⟩ := ends_bind.mp h
        cases (ends_pure.mp h).1
        exact hrc

/-! ## 4. Chains -/

/-- **A run that returned `EX_OK`** is a chain of hops. -/
theorem fetch_chain {n depth : Nat} {hdrbuf url : List UInt8} {w w' : World σ}
    (h : Ends (fetch sys n hdrbuf url outpath depth) w .ok w') :
    ∃ hops, Chain sys outpath n hdrbuf url w hops w' := by
  induction n generalizing hdrbuf url depth w with
  | zero => exact absurd h not_ends_stuck
  | succ n ih =>
    unfold fetch at h
    split at h
    · cases (ends_pure.mp h).1
    · cases hu : urlParse url with
      | error rc =>
        rw [hu] at h
        obtain rfl : rc = .ok := (ends_pure.mp h).1
        cases urlParse_error hu
      | ok u =>
        rw [hu] at h
        obtain ⟨c?, w₁, hopen, h⟩ := ends_bind.mp h
        cases c? with
        | error rc =>
          obtain rfl : rc = .ok := (ends_pure.mp h).1
          exact absurd rfl (connOpen_error hopen)
        | ok c =>
          obtain ⟨res, w₂, hex, h⟩ := ends_bind.mp h
          cases res with
          | error rc =>
            obtain rfl : rc = .ok := (ends_pure.mp h).1
            exact absurd rfl (exchange_error hex)
          | ok res =>
            obtain ⟨r, buf⟩ := res
            obtain ⟨hop, rfl, rfl, rfl, rfl, hsent, hread⟩ := exchange_hop hex
            have hans : Answered sys n hdrbuf url w hop := ⟨⟨u, w₁, hu, hopen, hsent⟩, hread⟩
            dsimp only at h
            by_cases hf : follows sys.opt hop.resp = true
            · rw [if_pos hf] at h
              split at h
              · obtain ⟨_, w₃, hclose, h⟩ := ends_bind.mp h
                obtain ⟨hops, hchain⟩ := ih h
                exact ⟨hop :: hops, .redirect hans hf hclose hchain⟩
              · obtain ⟨_, _, -, h⟩ := ends_bind.mp h
                cases (ends_pure.mp h).1
            · rw [if_neg hf] at h
              split at h
              · obtain ⟨_, _, -, h⟩ := ends_bind.mp h
                cases (ends_pure.mp h).1
              · exact ⟨[hop], .last hans (Bool.eq_false_iff.mpr hf) (by omega) h⟩

theorem Answered.unique {n : Nat} {hdrbuf url : List UInt8} {w : World σ} {hop hop' : Hop σ}
    (h : Answered sys n hdrbuf url w hop) (h' : Answered sys n hdrbuf url w hop') : hop = hop' := by
  obtain ⟨conn, sent, read, resp, buf⟩ := hop
  obtain ⟨conn', sent', read', resp', buf'⟩ := hop'
  obtain ⟨⟨u, w₁, hu, hopen, hsent⟩, hread⟩ := h
  obtain ⟨⟨u', w₁', hu', hopen', hsent'⟩, hread'⟩ := h'
  obtain rfl : u = u' := Except.ok.inj (hu.symm.trans hu')
  obtain ⟨he, rfl⟩ := hopen.unique hopen'
  obtain rfl : conn = conn' := Except.ok.inj he
  obtain ⟨-, rfl⟩ : true = true ∧ sent = sent' := hsent.unique hsent'
  obtain ⟨he, rfl⟩ := hread.unique hread'
  cases he
  rfl

/-- A run is of one chain. -/
theorem Chain.unique {n : Nat} {hdrbuf url : List UInt8} {w w₁ w₂ : World σ} {hops hops' : List (Hop σ)}
    (h : Chain sys outpath n hdrbuf url w hops w₁) (h' : Chain sys outpath n hdrbuf url w hops' w₂) :
    hops = hops' := by
  induction h generalizing hops' with
  | last hans hf _ _ =>
    cases h' with
    | last hans' _ _ _ => rw [hans.unique hans']
    | redirect hans' hf' _ _ =>
      rw [hans.unique hans', hf'] at hf
      cases hf
  | redirect hans hf hclose _ ih =>
    cases h' with
    | last hans' hf' _ _ =>
      rw [hans.unique hans', hf'] at hf
      cases hf
    | redirect hans' _ hclose' hchain =>
      obtain rfl := hans.unique hans'
      obtain ⟨-, rfl⟩ := hclose.unique hclose'
      rw [ih hchain]

/-- A chain goes on behind its first hop only if that is a redirect. -/
theorem Chain.first {n : Nat} {hdrbuf url : List UInt8} {w w' : World σ} {hops : List (Hop σ)}
    (h : Chain sys outpath (n + 1) hdrbuf url w hops w') : ∃ hop rest, hops = hop :: rest ∧
      Answered sys n hdrbuf url w hop ∧ (follows sys.opt hop.resp = false → rest = []) := by
  cases h with
  | last hans _ _ _ => exact ⟨_, [], rfl, hans, fun _ => rfl⟩
  | redirect hans hf _ _ =>
    refine ⟨_, _, rfl, hans, fun hno => ?_⟩
    rw [hf] at hno
    cases hno

/-- The hop whose body was delivered. -/
structure Last (sys : Sys σ) (outpath : Option (List UInt8)) (n : Nat) (hop : Hop σ) (w' : World σ) : Prop where
  answered : ∃ hdrbuf url w, hdrbuf.length = hdrbufSize ∧ Answered sys n hdrbuf url w hop
  not_followed : follows sys.opt hop.resp = false
  status : hop.resp.status < 400
  deliver : Ends (deliver sys n hop.conn hop.resp hop.buf outpath) hop.noted .ok w'

theorem Chain.exists_last {rem : Conn → World σ → List UInt8} (hr : Receives sys rem) {n : Nat}
    {hdrbuf url : List UInt8} {w w' : World σ} {hops : List (Hop σ)} (hbuf : hdrbuf.length = hdrbufSize)
    (h : Chain sys outpath n hdrbuf url w hops w') :
    ∃ before last m, hops = before ++ [last] ∧ Last sys outpath m last w' := by
  induction h with
  | @last n _ _ _ _ hop hans hf hs hd => exact ⟨[], hop, n, rfl, ⟨_, _, _, hbuf, hans⟩, hf, hs, hd⟩
  | @redirect _ _ _ _ _ _ hop hops hans _ _ _ ih =>
    obtain ⟨_, _, _, -, hlen, -⟩ := readHeaders_parsed (peer_streams hr _ _ _) hbuf hans.headers
    obtain ⟨before, last, m, rfl, h⟩ := ih hlen
    exact ⟨hop :: before, last, m, rfl, h⟩

/-- The world in which `deliver` starts the body, and where it writes. -/
def Opened (sys : Sys σ) (outpath : Option (List UInt8)) (w : World σ) (out : Int) (w₁ : World σ) : Prop :=
  out = stdoutFileno ∧ w₁ = w ∨ ∃ path, outpath = some path ∧ Ends (sys.create path) w out w₁

/-- **What `deliver` runs to the end**: the body. -/
theorem deliver_body {n : Nat} {c : Conn} {r : Resp} {hdrbuf : List UInt8} {w w' : World σ}
    (h : Ends (deliver sys n c r hdrbuf outpath) w .ok w') : ∃ out w₁ written w₂,
      Opened sys outpath w out w₁ ∧ Ends (body sys n c r hdrbuf out) w₁ (.ok, written) w₂ := by
  have hclosing : ∀ {rc : Exit} {t : World σ}, Ends (closing sys c rc) t .ok w' → rc = .ok := by
    intro rc t h
    obtain ⟨_, _, -, h⟩ := ends_bind.mp h
    exact (ends_pure.mp h).1
  have htransfer : ∀ {out : Int} {t : World σ}, Ends (transfer sys n c r hdrbuf out) t .ok w' →
      ∃ written w₂, Ends (body sys n c r hdrbuf out) t (.ok, written) w₂ := by
    intro out t h
    obtain ⟨⟨rc, written⟩, t', hb, h⟩ := ends_bind.mp h
    dsimp only at h
    split at h
    · obtain ⟨_, _, -, h⟩ := ends_bind.mp h
      obtain rfl := hclosing h
      exact ⟨written, t', hb⟩
    · obtain rfl := hclosing h
      exact ⟨written, t', hb⟩
  unfold deliver at h
  split at h
  · obtain ⟨written, w₂, hb⟩ := htransfer h
    exact ⟨stdoutFileno, w, written, w₂, .inl ⟨rfl, rfl⟩, hb⟩
  · rename_i path
    split at h
    · obtain ⟨written, w₂, hb⟩ := htransfer h
      exact ⟨stdoutFileno, w, written, w₂, .inl ⟨rfl, rfl⟩, hb⟩
    · obtain ⟨out, t, hcreate, h⟩ := ends_bind.mp h
      split at h
      · cases hclosing h
      · obtain ⟨written, w₂, hb⟩ := htransfer h
        exact ⟨out, t, written, w₂, .inr ⟨path, rfl, hcreate⟩, hb⟩

end

end P4Linux.Hget
