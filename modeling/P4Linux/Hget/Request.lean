import P4Linux.Hget.Complete

/-!
# The request, and what a URL can put into it

* `targetOf`, `hostOf`, `urlParse_parts` -- the parts of a URL, and that `url_parse` finds them;
* `OneRequest` -- the bytes of one request, and nothing more;
* `request_one_iff` -- `fetch` formats one if and only if the parts have no delimiters in them;
* `Visit`, `Visited` -- a run of `fetch`, however it ends, taken apart into its connections;
* `visit_requested` -- what is sent over one of them: the request, and nothing after it;
* `fetch_request_iff` -- both together, for every URL of a run.
-/

namespace P4Linux.Hget

open C Proc

/-! ## 1. The parts of a URL -/

def afterScheme (s : List UInt8) : List UInt8 := if httpScheme.isPrefixOf s then s.drop 7 else s.drop 8

/-- What comes before the first slash after the scheme. -/
def authorityOf (s : List UInt8) : List UInt8 := (afterScheme s).takeWhile fun b => decide (b ≠ 47)

/-- And the rest, or a slash where there is none. -/
def targetOf (s : List UInt8) : List UInt8 :=
  match (afterScheme s).dropWhile fun b => decide (b ≠ 47) with
  | [] => [47]
  | t => t

/-- An authority without its port, or what it has in brackets. -/
def hostPart : List UInt8 → List UInt8
  | 91 :: t => t.takeWhile fun b => decide (b ≠ 93)
  | a => a.takeWhile fun b => decide (b ≠ 58)

def hostOf (s : List UInt8) : List UInt8 := hostPart (authorityOf s)

theorem hostPart_plain {a : List UInt8} (h : a.head? ≠ some 91) :
    hostPart a = a.takeWhile fun b => decide (b ≠ 58) := by
  unfold hostPart
  split
  · exact absurd rfl h
  · rfl

theorem urlHost_parts {tls : Bool} {port path host : List UInt8} {u : Url}
    (h : urlHost tls port path host = .ok u) :
    u.path = path ∧ u.host.length < hostbuf ∧ u.host = hostPart host := by
  unfold urlHost at h
  split at h
  · cases h
  · rename_i hlen
    rw [not_or, Nat.not_le] at hlen
    split at h
    · -- no bracket: the host ends at the first colon
      rename_i hhead
      rw [hostPart_plain hhead]
      rcases find_char_cases 58 host with ⟨hno, hnone⟩ | ⟨a, t, rfl, ha, hfind⟩
      · rw [hnone] at h
        cases h
        exact ⟨rfl, hlen.2, (List.takeWhile_eq_self_iff.mpr (forall_ne hno)).symm⟩
      · rw [hfind] at h
        dsimp only at h
        split at h
        · cases h
        · cases h
          rw [List.length_append] at hlen
          rw [List.take_left' rfl, takeWhile_ne ha]
          exact ⟨rfl, show a.length < hostbuf by omega, rfl⟩
    · rename_i hhead
      obtain ⟨b, t, rfl⟩ : ∃ b t, host = b :: t := List.exists_cons_of_length_pos (by omega)
      obtain rfl : b = 91 := Option.some.inj (not_not.mp hhead)
      rcases find_char_cases 93 t with ⟨hno, -⟩ | ⟨a, t, rfl, ha, -⟩
      · rw [find_char_none (by rw [List.mem_cons, not_or]; exact ⟨by decide, hno⟩)] at h
        cases h
      · have hfind : find [93] (91 :: (a ++ 93 :: t)) = some (a.length + 1) := by
          have hb : 93 ∉ 91 :: a := by
            rw [List.mem_cons, not_or]
            exact ⟨by decide, ha⟩
          exact find_char hb t
        rw [hfind] at h
        have hlit : ((91 :: (a ++ 93 :: t)).take (a.length + 1)).drop 1 = a := by
          rw [List.take_succ_cons, List.drop_one, List.tail_cons, List.take_left' rfl]
        rw [List.length_cons, List.length_append] at hlen
        have hpart : hostPart (91 :: (a ++ 93 :: t)) = a := takeWhile_ne ha t
        dsimp only at h
        rw [hlit] at h
        rw [hpart]
        repeat' split at h
        all_goals cases h
        all_goals exact ⟨rfl, show a.length < hostbuf by omega, rfl⟩

/-- **What `url_parse` finds.** -/
theorem urlParse_parts {s : List UInt8} {u : Url} (h : urlParse s = .ok u) :
    u.path = targetOf s ∧ u.host = hostOf s ∧ u.path.length < urlbuf ∧ u.host.length < hostbuf := by
  have hrest : ∀ {tls : Bool} {port : List UInt8}, urlRest tls port (afterScheme s) = .ok u →
      u.path = targetOf s ∧ u.host = hostOf s ∧ u.path.length < urlbuf ∧ u.host.length < hostbuf := by
    intro tls port h
    unfold targetOf hostOf authorityOf
    unfold urlRest at h
    rcases find_char_cases 47 (afterScheme s) with ⟨hno, hnone⟩ | ⟨a, t, hs, ha, hfind⟩
    · rw [hnone] at h
      obtain ⟨hpath, hlen, hhost⟩ := urlHost_parts h
      rw [List.dropWhile_eq_nil_iff.mpr (forall_ne hno), List.takeWhile_eq_self_iff.mpr (forall_ne hno), hpath]
      exact ⟨rfl, hhost, by decide, hlen⟩
    · rw [hfind] at h
      rw [hs] at h ⊢
      dsimp only at h
      rw [List.drop_left' rfl, List.take_left' rfl] at h
      split at h
      · cases h
      · rename_i hfit
        obtain ⟨hpath, hlen, hhost⟩ := urlHost_parts h
        rw [dropWhile_ne ha, takeWhile_ne ha, hpath]
        exact ⟨rfl, hhost, by omega, hlen⟩
  unfold urlParse at h
  unfold afterScheme at hrest
  cases hp : httpScheme.isPrefixOf s with
  | true =>
    rw [hp, if_pos rfl] at h
    rw [hp] at hrest
    exact hrest h
  | false =>
    rw [hp, if_neg Bool.false_ne_true] at h
    rw [hp] at hrest
    split at h
    · exact hrest h
    · cases h

/-- An accepted URL makes a request that fits. -/
theorem request_fits {s : List UInt8} {u : Url} (h : urlParse s = .ok u) : (request u).length < reqbuf := by
  obtain ⟨-, -, hpath, hhost⟩ := urlParse_parts h
  have hget : reqGet.length = 4 := rfl
  have hhostLine : reqHost.length = 17 := rfl
  have htail : reqTail.length = 58 := rfl
  have hmax : hostbuf = 256 := rfl
  unfold request reqbuf
  rw [List.length_append, List.length_append, List.length_append, List.length_append]
  omega

/-! ## 2. One request -/

/-- No CR and no LF. -/
def OneLine (v : List UInt8) : Prop := 13 ∉ v ∧ 10 ∉ v

/-- `"\r\nUser-Agent: "`. -/
def userAgent : List UInt8 := [13, 10, 85, 115, 101, 114, 45, 65, 103, 101, 110, 116, 58, 32]

/-- `"\r\nAccept: "`. -/
def acceptField : List UInt8 := [13, 10, 65, 99, 99, 101, 112, 116, 58, 32]

/-- `"\r\nConnection: "`. -/
def connectionField : List UInt8 := [13, 10, 67, 111, 110, 110, 101, 99, 116, 105, 111, 110, 58, 32]

/-- **One request**: the request line, four header lines, an empty line, and nothing more. -/
def OneRequest (l : List UInt8) : Prop :=
  ∃ target host agent accept connection, 32 ∉ target ∧ OneLine target ∧ OneLine host ∧ OneLine agent ∧
    OneLine accept ∧ OneLine connection ∧
    l = reqGet ++ target ++ reqHost ++ host ++ (userAgent ++ agent ++ acceptField ++ accept ++
      connectionField ++ connection ++ crlf2)

/-- The parts of the URL have no delimiter of the request in them. -/
def CleanUrl (s : List UInt8) : Prop := 32 ∉ targetOf s ∧ OneLine (targetOf s) ∧ OneLine (hostOf s)

theorem oneRequest_clean {u : Url} (hspace : 32 ∉ u.path) (hpath : OneLine u.path) (hhost : OneLine u.host) :
    OneRequest (request u) := by
  refine ⟨u.path, u.host, [104, 103, 101, 116, 47, 49, 46, 48], [42, 47, 42], [99, 108, 111, 115, 101],
    hspace, hpath, hhost, ?_, ?_, ?_, rfl⟩
  all_goals exact ⟨by decide, by decide⟩

/-- The line ends of a request are those of the format: there is no room for more. -/
theorem clean_of_counts {c : UInt8} {target host agent accept connection path host' : List UInt8}
    (hc : c = 13 ∨ c = 10) (htarget : c ∉ target) (hhost : c ∉ host) (hagent : c ∉ agent) (haccept : c ∉ accept)
    (hconnection : c ∉ connection)
    (h : reqGet ++ path ++ reqHost ++ host' ++ reqTail = reqGet ++ target ++ reqHost ++ host ++
      (userAgent ++ agent ++ acceptField ++ accept ++ connectionField ++ connection ++ crlf2)) :
    c ∉ path ∧ c ∉ host' := by
  have hcount := congrArg (List.count c) h
  simp only [List.count_append, List.count_eq_zero_of_not_mem htarget, List.count_eq_zero_of_not_mem hhost,
    List.count_eq_zero_of_not_mem hagent, List.count_eq_zero_of_not_mem haccept,
    List.count_eq_zero_of_not_mem hconnection] at hcount
  have hformat : reqTail.count c = userAgent.count c + acceptField.count c + connectionField.count c +
      crlf2.count c := by
    rcases hc with rfl | rfl <;> decide
  exact ⟨List.count_eq_zero.mp (by omega), List.count_eq_zero.mp (by omega)⟩

/-- **`fetch` formats one request** if and only if the URL is clean. -/
theorem request_one_iff {s : List UInt8} {u : Url} (hu : urlParse s = .ok u) :
    OneRequest (request u) ↔ CleanUrl s := by
  obtain ⟨hpath, hhost, -, -⟩ := urlParse_parts hu
  unfold CleanUrl
  rw [← hpath, ← hhost]
  constructor
  · intro hone
    obtain ⟨target, host, agent, accept, connection, hspace, htarget, hhost', hagent, haccept, hconn, h⟩ := hone
    obtain ⟨hcr, hcr'⟩ := clean_of_counts (.inl rfl) htarget.1 hhost'.1 hagent.1 haccept.1 hconn.1 h
    obtain ⟨hlf, hlf'⟩ := clean_of_counts (.inr rfl) htarget.2 hhost'.2 hagent.2 haccept.2 hconn.2 h
    -- the request lines are the same, so the targets are
    have hline : u.path ++ reqHost.take 9 = target ++ reqHost.take 9 := by
      have hcut : ∀ (t x y : List UInt8), 13 ∉ t →
          (reqGet ++ t ++ reqHost ++ x ++ y).takeWhile (fun b => decide (b ≠ 13)) =
            reqGet ++ (t ++ reqHost.take 9) := by
        intro t x y ht
        have hno : 13 ∉ reqGet ++ (t ++ reqHost.take 9) := by
          rw [List.mem_append, List.mem_append, not_or, not_or]
          exact ⟨by decide, ht, by decide⟩
        have hsplit : reqGet ++ t ++ reqHost ++ x ++ y =
            reqGet ++ (t ++ reqHost.take 9) ++ 13 :: (reqHost.drop 10 ++ x ++ y) := by
          have hformat : reqHost = reqHost.take 9 ++ 13 :: reqHost.drop 10 := rfl
          conv_lhs => rw [hformat]
          simp only [List.append_assoc, List.cons_append]
        rw [hsplit, takeWhile_ne hno]
      have h' := congrArg (List.takeWhile fun b => decide (b ≠ 13)) h
      unfold request at h'
      rw [hcut _ _ _ hcr, hcut _ _ _ htarget.1] at h'
      exact List.append_cancel_left h'
    have heq : u.path = target := List.append_cancel_right hline
    exact ⟨heq ▸ hspace, ⟨hcr, hlf⟩, ⟨hcr', hlf'⟩⟩
  · intro hclean
    obtain ⟨hspace, hpath, hhost⟩ := hclean
    exact oneRequest_clean hspace hpath hhost

/-! ## 3. The connections of a run -/

section

variable {σ : Type} (sys : Sys σ)

/-- What `fetch` does with an open connection: its exit code, or the URL and the buffer to go on with. -/
def visit (n : Nat) (c : Conn) (u : Url) (hdrbuf : List UInt8) (outpath : Option (List UInt8)) :
    Proc (World σ) (Except Exit (List UInt8 × List UInt8)) := do
  match ← exchange sys n c u hdrbuf with
  | .error rc => pure (.error rc)
  | .ok (r, hdrbuf) =>
    if follows sys.opt r then
      if httpScheme.isPrefixOf r.location || httpsScheme.isPrefixOf r.location then
        connClose sys c
        pure (.ok (r.location, hdrbuf))
      else
        let rc ← closing sys c .redirect
        pure (.error rc)
    else if 400 ≤ r.status then
      let rc ← closing sys c .http
      pure (.error rc)
    else
      let rc ← deliver sys n c r hdrbuf outpath
      pure (.error rc)

/-- One connection of a run: the URL it was made for, and the worlds in which it was open and in which
    `fetch` was done with it. -/
structure Visit (σ : Type) where
  url : List UInt8
  rounds : Nat
  conn : Conn
  opened : World σ
  done : World σ

/-- `v` is the connection that `fetch` made for `url` in `w`, and `res` what came of it. -/
structure Visited (n : Nat) (hdrbuf : List UInt8) (outpath : Option (List UInt8)) (w : World σ) (u : Url)
    (v : Visit σ) (res : Except Exit (List UInt8 × List UInt8)) : Prop where
  rounds : v.rounds = n
  parsed : urlParse v.url = .ok u
  opened : Ends (connOpen sys n u.host u.port u.tls) w (.ok v.conn) v.opened
  visited : Ends (visit sys n v.conn u hdrbuf outpath) v.opened res v.done

/-- A run of `fetch` that returned `rc`, and all its connections, in order. -/
inductive Visits (outpath : Option (List UInt8)) :
    Nat → List UInt8 → List UInt8 → Nat → World σ → List (Visit σ) → Exit → World σ → Prop
  | tooDeep {n : Nat} {hdrbuf url : List UInt8} {depth : Nat} {w : World σ} :
      maxRedirects < depth → Visits outpath (n + 1) hdrbuf url depth w [] .redirect w
  | unread {n : Nat} {hdrbuf url : List UInt8} {depth : Nat} {w : World σ} {rc : Exit} :
      urlParse url = .error rc → Visits outpath (n + 1) hdrbuf url depth w [] rc w
  | unopened {n : Nat} {hdrbuf url : List UInt8} {depth : Nat} {w w' : World σ} {u : Url} {rc : Exit} :
      urlParse url = .ok u → Ends (connOpen sys n u.host u.port u.tls) w (.error rc) w' →
      Visits outpath (n + 1) hdrbuf url depth w [] rc w'
  | last {n : Nat} {hdrbuf : List UInt8} {depth : Nat} {w : World σ} {u : Url} {rc : Exit} {v : Visit σ} :
      Visited sys n hdrbuf outpath w u v (.error rc) →
      Visits outpath (n + 1) hdrbuf v.url depth w [v] rc v.done
  | redirect {n : Nat} {hdrbuf buf location : List UInt8} {depth : Nat} {w w' : World σ} {u : Url} {rc : Exit}
      {v : Visit σ} {vs : List (Visit σ)} : Visited sys n hdrbuf outpath w u v (.ok (location, buf)) →
      Visits outpath n buf location (depth + 1) v.done vs rc w' →
      Visits outpath (n + 1) hdrbuf v.url depth w (v :: vs) rc w'

variable {sys} {outpath : Option (List UInt8)}

/-- **Every run of `fetch`** is one of these, by induction on its rounds. -/
theorem fetch_visits {n depth : Nat} {hdrbuf url : List UInt8} {w w' : World σ} {rc : Exit}
    (h : Ends (fetch sys n hdrbuf url outpath depth) w rc w') :
    ∃ vs, Visits sys outpath n hdrbuf url depth w vs rc w' := by
  induction n generalizing hdrbuf url depth w with
  | zero => exact absurd h not_ends_stuck
  | succ n ih =>
    unfold fetch at h
    split at h
    · rename_i hdeep
      obtain ⟨rfl, rfl⟩ := ends_pure.mp h
      exact ⟨[], .tooDeep hdeep⟩
    · cases hu : urlParse url with
      | error e =>
        rw [hu] at h
        obtain ⟨rfl, rfl⟩ := ends_pure.mp h
        exact ⟨[], .unread hu⟩
      | ok u =>
        rw [hu] at h
        obtain ⟨c?, w₁, hopen, h⟩ := ends_bind.mp h
        cases c? with
        | error e =>
          obtain ⟨rfl, rfl⟩ := ends_pure.mp h
          exact ⟨[], .unopened hu hopen⟩
        | ok c =>
          -- a visit that ends the run, and one that does not
          have hlast : ∀ {t : World σ}, Ends (visit sys n c u hdrbuf outpath) w₁ (.error rc) t → w' = t →
              ∃ vs, Visits sys outpath (n + 1) hdrbuf url depth w vs rc w' := by
            rintro t hv rfl
            exact ⟨_, .last (v := ⟨url, n, c, w₁, w'⟩) ⟨rfl, hu, hopen, hv⟩⟩
          obtain ⟨res, w₂, hex, h⟩ := ends_bind.mp h
          rcases res with e | ⟨r, buf⟩
          · obtain ⟨rfl, rfl⟩ := ends_pure.mp h
            exact hlast (hex.bind (ends_pure.mpr ⟨rfl, rfl⟩)) rfl
          · dsimp only at h
            by_cases hf : follows sys.opt r = true
            · rw [if_pos hf] at h
              by_cases hloc : (httpScheme.isPrefixOf r.location || httpsScheme.isPrefixOf r.location) = true
              · rw [if_pos hloc] at h
                obtain ⟨_, w₃, hclose, h⟩ := ends_bind.mp h
                obtain ⟨vs, hvs⟩ := ih h
                have hv : Ends (visit sys n c u hdrbuf outpath) w₁ (.ok (r.location, buf)) w₃ := by
                  refine hex.bind ?_
                  dsimp only
                  rw [if_pos hf, if_pos hloc]
                  exact hclose.bind (ends_pure.mpr ⟨rfl, rfl⟩)
                exact ⟨_, .redirect (v := ⟨url, n, c, w₁, w₃⟩) ⟨rfl, hu, hopen, hv⟩ hvs⟩
              · rw [if_neg hloc] at h
                refine hlast (hex.bind ?_) rfl
                dsimp only
                rw [if_pos hf, if_neg hloc]
                exact h.bind (ends_pure.mpr ⟨rfl, rfl⟩)
            · rw [if_neg hf] at h
              by_cases hs : 400 ≤ r.status
              · rw [if_pos hs] at h
                refine hlast (hex.bind ?_) rfl
                dsimp only
                rw [if_neg hf, if_pos hs]
                exact h.bind (ends_pure.mpr ⟨rfl, rfl⟩)
              · rw [if_neg hs] at h
                refine hlast (hex.bind ?_) rfl
                dsimp only
                rw [if_neg hf, if_neg hs]
                exact h.bind (ends_pure.mpr ⟨rfl, rfl⟩)

end

/-! ## 4. What is sent -/

section

variable {σ : Type} {sys : Sys σ} {sent : Conn → World σ → List UInt8} {fds : σ → Set Int}

/-- **What the calls for the output do not send**: a `write` sends over the connection of its own
    descriptor only, and `open` over none. -/
structure Outputs (sys : Sys σ) (sent : Conn → World σ → List UInt8) : Prop where
  write : ∀ fd buf c, c.fd ≠ fd → Leaves (sent c) (call (sys.kernel.write fd buf))
  create : ∀ path c, Leaves (sent c) (sys.create path)

/-- **What was sent over a connection**: the request, or a part of it where `conn_write` failed; and
    nothing behind it, if `alone`. -/
def Requested (sys : Sys σ) (sent : Conn → World σ → List UInt8) (v : Visit σ) (req : List UInt8)
    (alone : Prop) : Prop :=
  ∃ ok w₁, Ends (connWrite sys v.conn v.rounds req) v.opened ok w₁ ∧
    Passed ok req (sent v.conn v.opened) (sent v.conn w₁) ∧
    (alone → sent v.conn v.done = sent v.conn w₁)

theorem leaves_peer_sent (hs : Sends sys sent) (n : Nat) (c d : Conn) (fd : Int) (hdrbuf : List UInt8) :
    Leaves (sent d) (readHeaders (peer sys n c fd) n hdrbuf) :=
  leaves_readHeaders (fun len => leaves_connRead_sent hs c d n len) n hdrbuf

/-- **An exchange** sends the request, or a part of it when that fails, and then reads. -/
theorem exchange_sent (hs : Sends sys sent) {n : Nat} {c : Conn} {u : Url} {hdrbuf : List UInt8} {w w' : World σ}
    {res : Except Exit (Resp × List UInt8)} (hfit : (request u).length < reqbuf)
    (h : Ends (exchange sys n c u hdrbuf) w res w') : ∃ ok w₁,
      Ends (connWrite sys c n (request u)) w ok w₁ ∧ Passed ok (request u) (sent c w) (sent c w₁) ∧
      sent c w' = sent c w₁ := by
  unfold exchange at h
  rw [if_neg (by omega)] at h
  obtain ⟨ok, t, hw, h⟩ := ends_bind.mp h
  refine ⟨ok, t, hw, connWrite_sent hs hw, ?_⟩
  cases ok with
  | false =>
    obtain ⟨_, t', hclose, h⟩ := ends_bind.mp h
    obtain ⟨-, rfl⟩ := ends_pure.mp h
    exact (leaves_connClose_sent hs c c).ends hclose
  | true =>
    rw [if_neg (by decide)] at h
    obtain ⟨⟨rc, r, buf⟩, t', hread, h⟩ := ends_bind.mp h
    rw [← (leaves_peer_sent hs n c c stdoutFileno hdrbuf).ends hread]
    dsimp only at h
    split at h
    · obtain ⟨_, t'', hclose, h⟩ := ends_bind.mp h
      obtain ⟨-, rfl⟩ := ends_pure.mp h
      exact (leaves_connClose_sent hs c c).ends hclose
    · obtain ⟨_, t'', hnote, h⟩ := ends_bind.mp h
      obtain ⟨-, rfl⟩ := ends_pure.mp h
      exact (hs.note _ _).ends hnote

theorem leaves_writeAll_sent (ho : Outputs sys sent) {c : Conn} {out : Int} (hne : c.fd ≠ out) (n : Nat)
    (buf : List UInt8) : Leaves (sent c) (writeAll sys out n buf) := by
  induction n generalizing buf with
  | zero => exact leaves_stuck
  | succ n ih =>
    refine leaves_ite (leaves_pure _) (leaves_bind (ho.write out buf c hne) ?_)
    intro r
    rcases r with (_ | _ | _ | _) | m
    · exact ih buf
    · exact leaves_pure _
    · exact leaves_pure _
    · exact leaves_pure _
    · exact ih (buf.drop m)

theorem leaves_closing_sent (hs : Sends sys sent) (c : Conn) (rc : Exit) : Leaves (sent c) (closing sys c rc) :=
  leaves_bind (leaves_connClose_sent hs c c) fun _ => leaves_pure _

/-- **A transfer** to another descriptor than the connection's sends nothing. -/
theorem leaves_transfer_sent (hs : Sends sys sent) (ho : Outputs sys sent) (n : Nat) {c : Conn} {out : Int}
    (hne : c.fd ≠ out) (r : Resp) (hdrbuf : List UInt8) : Leaves (sent c) (transfer sys n c r hdrbuf out) := by
  have hread : ∀ len, Leaves (sent c) (connRead sys c n len) := leaves_connRead_sent hs c c n
  have hwrite : ∀ buf, Leaves (sent c) (writeAll sys out n buf) := leaves_writeAll_sent ho hne n
  refine leaves_bind (leaves_ite (leaves_chunkLoop hread hwrite n (r.pending hdrbuf) 0)
    (leaves_bodyPlain hread hwrite n hdrbuf r 0)) fun x => ?_
  exact leaves_ite (leaves_bind (hs.close out c) fun _ => leaves_closing_sent hs c x.1)
    (leaves_closing_sent hs c x.1)

/-- The body goes to another descriptor than the connection's: one that was open before it, or a file. -/
def Apart (fds : σ → Set Int) (w : World σ) (outpath : Option (List UInt8)) : Prop :=
  stdoutFileno ∈ fds w.kernel ∨ ∃ path, Named outpath path

section

variable (hs : Sends sys sent) (ho : Outputs sys sent) (hk : Descriptors sys.kernel fds)
include hs ho hk

theorem deliver_sent {n : Nat} {c : Conn} {r : Resp} {hdrbuf : List UInt8} {outpath : Option (List UInt8)}
    {w₀ w w' : World σ} {l : List Event} {rc : Exit} (hopen : Open fds w₀ c.fd l)
    (hseen : seen fds w = opened fds w₀ c.fd l [.response r]) (hout : Apart fds w₀ outpath)
    (h : Ends (deliver sys n c r hdrbuf outpath) w rc w') : sent c w' = sent c w := by
  have hstdout : (¬ ∃ path, Named outpath path) → c.fd ≠ stdoutFileno := fun hno e =>
    hopen.fresh (e ▸ hout.resolve_right hno)
  unfold deliver at h
  split at h
  · exact (leaves_transfer_sent hs ho n (hstdout (by rintro ⟨_, ⟨⟩, -⟩)) r hdrbuf).ends h
  · rename_i path
    split at h
    · rename_i hdash
      refine (leaves_transfer_sent hs ho n (hstdout ?_) r hdrbuf).ends h
      rintro ⟨_, ⟨⟩, hne⟩
      exact hne hdash
    · obtain ⟨out, t, hcreate, h⟩ := ends_bind.mp h
      rw [← (ho.create path c).ends hcreate]
      split at h
      · exact (leaves_closing_sent hs c .io).ends h
      · rename_i hpos
        -- `open` gave the file a descriptor that was not open, and the connection's is
        obtain ⟨-, hfds⟩ := hcreate.of_wp (seen_create hk hseen)
        rw [HandsOut, if_neg hpos] at hfds
        exact (leaves_transfer_sent hs ho n (fun e => hfds.1 (.inr e.symm)) r hdrbuf).ends h

variable (ht : sys.tls.Contained fds)
include ht

/-- **One connection**: the request goes out over it, and nothing else; and when it was closed for the
    next one, the descriptors are again those of before. -/
theorem visit_requested {n : Nat} {hdrbuf : List UInt8} {outpath : Option (List UInt8)} {w : World σ} {u : Url}
    {v : Visit σ} {res : Except Exit (List UInt8 × List UInt8)}
    (h : Visited sys n hdrbuf outpath w u v res) :
    Requested sys sent v (request u) (Apart fds w outpath) ∧
      (∀ x, res = .ok x → fds v.done.kernel = fds w.kernel) := by
  obtain ⟨hn, hu, hopened, hvisit⟩ := h
  obtain ⟨l, hopen, hseen⟩ := opened_of_connected (hopened.of_wp (connOpen_wp hk ht n u.host u.port u.tls w))
  obtain ⟨ex, w₂, hex, hrest⟩ := ends_bind.mp hvisit
  obtain ⟨ok, w₁, hw, hpassed, hsent⟩ := exchange_sent hs (request_fits hu) hex
  have hreq : (Apart fds w outpath → sent v.conn v.done = sent v.conn w₂) →
      Requested sys sent v (request u) (Apart fds w outpath) := fun hafter =>
    ⟨ok, w₁, by rw [hn]; exact hw, hpassed, fun ha => (hafter ha).trans hsent⟩
  have hwp : wp (exchange sys n v.conn u hdrbuf) (fun res t => match res with
      | .error e => Logged fds sys.opt outpath w 1 (some e) t
      | .ok (r, _) => seen fds t = opened fds w v.conn.fd l [.response r])
      (Logged fds sys.opt outpath w 1 none) v.opened := exchange_wp hk ht hopen n u hdrbuf hseen
  have hwp := hex.of_wp hwp
  rcases ex with e | ⟨r, buf⟩
  · obtain ⟨rfl, hdone⟩ := ends_pure.mp hrest
    exact ⟨hreq fun _ => by rw [hdone], nofun⟩
  · have hseen' : seen fds w₂ = opened fds w v.conn.fd l [.response r] := hwp
    -- an exit: the code is passed on, and the connection was closed
    have hexit : ∀ {x : Proc (World σ) Exit}, Ends (x >>= fun rc => pure (.error rc)) w₂ res v.done →
        (∀ {rc : Exit}, Apart fds w outpath → Ends x w₂ rc v.done → sent v.conn v.done = sent v.conn w₂) →
        Requested sys sent v (request u) (Apart fds w outpath) ∧
          (∀ x, res = .ok x → fds v.done.kernel = fds w.kernel) := by
      intro x hx hsame
      obtain ⟨rc, t, hx, hp⟩ := ends_bind.mp hx
      obtain ⟨rfl, rfl⟩ := ends_pure.mp hp
      exact ⟨hreq fun ha => hsame ha hx, nofun⟩
    dsimp only at hrest
    split at hrest
    · split at hrest
      · obtain ⟨_, t, hclose, hp⟩ := ends_bind.mp hrest
        obtain ⟨rfl, rfl⟩ := ends_pure.mp hp
        refine ⟨hreq fun _ => (leaves_connClose_sent hs v.conn v.conn).ends hclose, fun _ _ => ?_⟩
        exact (congrArg Prod.snd (hclose.of_wp (seen_connClose hk ht hopen.pos hseen'))).trans hopen.closed
      · exact hexit hrest fun _ hx => (leaves_closing_sent hs v.conn .redirect).ends hx
    · split at hrest
      · exact hexit hrest fun _ hx => (leaves_closing_sent hs v.conn .http).ends hx
      · exact hexit hrest fun ha hx => deliver_sent hs ho hk hopen hseen' ha hx

/-- A run, by induction on its connections. -/
theorem visits_requested {n depth : Nat} {hdrbuf url : List UInt8} {outpath : Option (List UInt8)} {w w' : World σ}
    {rc : Exit} {vs : List (Visit σ)} (h : Visits sys outpath n hdrbuf url depth w vs rc w') :
    ∀ v ∈ vs, ∃ u, urlParse v.url = .ok u ∧ Requested sys sent v (request u) (Apart fds w outpath) := by
  induction h with
  | tooDeep => exact fun _ hv => by cases hv
  | unread => exact fun _ hv => by cases hv
  | unopened => exact fun _ hv => by cases hv
  | last hv =>
    intro v' hv'
    obtain rfl := List.mem_singleton.mp hv'
    exact ⟨_, hv.parsed, (visit_requested hs ho hk ht hv).1⟩
  | redirect hv _ ih =>
    obtain ⟨hreq, hback⟩ := visit_requested hs ho hk ht hv
    have hfds := hback _ rfl
    intro v' hv'
    rcases List.mem_cons.mp hv' with rfl | hv'
    · exact ⟨_, hv.parsed, hreq⟩
    · obtain ⟨u, hu, hreq'⟩ := ih v' hv'
      unfold Apart at hreq' ⊢
      rw [hfds] at hreq'
      exact ⟨u, hu, hreq'⟩

end

end

/-! ## 5. Two URLs -/

def Ledger.wire (_ : Conn) (w : World Ledger) : List UInt8 := w.kernel.sent

theorem Ledger.sends : Sends Ledger.sys Ledger.wire where
  send fd buf w m w' h := by
    obtain ⟨he, rfl⟩ := Prod.mk.inj (ends_step.mp h)
    cases he
    show w.kernel.sent ++ buf.take 40 = w.kernel.sent ++ buf.take (min buf.length 40)
    rw [Nat.min_comm, ← List.take_take, List.take_length]
  interrupted fd buf w w' h := by cases (Prod.mk.inj (ends_step.mp h)).1
  sendFailed fd buf w e w' h := by cases (Prod.mk.inj (ends_step.mp h)).1
  write fd buf w m w' h := by cases (ends_pure.mp h).1
  again fd buf w e w' h he := by
    obtain ⟨-, rfl⟩ := ends_pure.mp h
    rfl
  writeFailed fd buf w e w' h := by
    obtain ⟨-, rfl⟩ := ends_pure.mp h
    exact ⟨[], (List.append_nil _).symm, List.nil_prefix⟩
  recv fd len c := fun _ => rfl
  read fd len c := leaves_pure _
  closeNotify fd c := leaves_pure _
  free c := leaves_pure _
  close fd c := leaves_bind (fun _ => rfl) fun _ _ => rfl
  note e c := fun _ => rfl

theorem Ledger.outputs : Outputs Ledger.sys Ledger.wire where
  write _ _ _ _ := fun _ => rfl
  create _ _ := leaves_bind (fun _ => rfl) fun _ => leaves_bind (fun _ => rfl) fun _ => leaves_pure _

def Ledger.fds (s : Ledger) : Set Int := Tape.fds s.tape

theorem Ledger.descriptors : Descriptors Ledger.sys.kernel Ledger.fds where
  socket ai s := Tape.descriptors.socket ai s.tape
  create path s := Tape.descriptors.create path s.tape
  close fd s := Tape.descriptors.close fd s.tape
  getaddrinfo _ _ _ := rfl
  getfl _ _ := rfl
  setfl _ _ _ := rfl
  connect _ _ _ := rfl
  poll _ _ _ := rfl
  getsockopt _ _ := rfl
  setsockopt _ _ _ _ := rfl
  recv _ _ _ := rfl
  send _ _ _ := rfl
  write _ _ _ := rfl

theorem Ledger.contained : Ledger.sys.tls.Contained Ledger.fds where
  init := leaves_pure _
  seed := leaves_pure _
  configDefaults := leaves_pure _
  confAuthmode _ := leaves_pure _
  parseFile _ := leaves_pure _
  confCaChain := leaves_pure _
  confRng := leaves_pure _
  setup := leaves_pure _
  setHostname _ := leaves_pure _
  verifyResult := leaves_pure _
  free := leaves_pure _
  handshake _ _ := leaves_pure _
  write _ _ _ := leaves_pure _
  read _ _ _ := leaves_pure _
  closeNotify _ _ := leaves_pure _

/-- Descriptor 1 is free, the socket is given it, and what is written to it is sent. -/
def Ledger.shared : Sys Ledger :=
  { Ledger.sys with kernel := { Ledger.kernel with
      socket := fun _ => Ledger.lift Tape.lowest
      write := Ledger.kernel.send } }

end P4Linux.Hget
