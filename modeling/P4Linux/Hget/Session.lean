import P4Linux.Hget.Fetch
import P4Linux.Hget.Race

/-!
# Sessions: what a run of `fetch` leaves in the log

* `Session` -- the logs that a chain of connections may leave: each connection after a race that
  closed what it opened, each but the last one answered by a redirect and closed at once;
* `session_closed`, `session_create`, … -- what such a log says of connections and of the output
  file, by induction on the chain;
* `fetch_wp` -- **every run of `fetch`** leaves such a log, and open only what was open before;
* `fetch_consistent_iff` -- both together: the file is closed unless it was given descriptor 1,
  which `fetch` takes for standard output and leaves open.
-/

namespace P4Linux.Hget

open Proc

/-! ## 1. Sessions -/

section

variable (opt : Options) (outpath : Option (List UInt8))

/-- A response whose body `fetch` delivers. -/
def Accepted (r : Resp) : Prop := r.status < 400 ∧ follows opt r = false

/-- The path of a file that the body goes to: `"-"` is standard output. -/
def Named (path : List UInt8) : Prop := outpath = some path ∧ path ≠ dash

/-- What follows `connected` on the last connection, when `fetch` returns `e`. -/
inductive Done (fd : Int) : Exit → List Event → Prop
  | early (e : Exit) : Done fd e [.close fd]
  | answered (e : Exit) (r : Resp) : Done fd e [.response r, .close fd]
  | refused {r : Resp} {path : List UInt8} {out : Int} : Accepted opt r → Named outpath path →
      out < 0 → Done fd .io [.response r, .create path out, .close fd]
  | file {e : Exit} {r : Resp} {path : List UInt8} {out : Int} : Accepted opt r →
      Named outpath path → 0 ≤ out → out ≠ stdoutFileno → out ≠ fd → e = .ok ∨ e = .io →
      Done fd e [.response r, .create path out, .close out, .close fd]
  /-- `if (out != STDOUT_FILENO) close(out)`: a file with that descriptor stays open -/
  | kept {e : Exit} {r : Resp} {path : List UInt8} : Accepted opt r → Named outpath path →
      stdoutFileno ≠ fd → e = .ok ∨ e = .io →
      Done fd e [.response r, .create path stdoutFileno, .close fd]

/-- The same, or as far as a run came that was cut off (`none`). -/
def Served (fd : Int) : Option Exit → List Event → Prop
  | some e, m => Done opt outpath fd e m
  | none, m => ∃ e m', Done opt outpath fd e m' ∧ m <+: m'

/-- What a run with at most `hops` connections logs. -/
inductive Session : Nat → Option Exit → List Event → Prop
  | idle {hops : Nat} {o : Option Exit} {l : List Event} : Quiet l → Session hops o l
  | last {hops : Nat} {o : Option Exit} {l m : List Event} {fd : Int} : Quiet l → Handed fd l →
      Served opt outpath fd o m → Session (hops + 1) o (l ++ .connected fd :: m)
  | redirect {hops : Nat} {o : Option Exit} {l m : List Event} {fd : Int} {r : Resp} : Quiet l →
      Handed fd l → Session hops o m →
      Session (hops + 1) o (l ++ .connected fd :: .response r :: .close fd :: m)

end

section

variable {opt : Options} {outpath : Option (List UInt8)} {fd : Int} {e : Exit} {o : Option Exit}
  {hops : Nat} {l m : List Event}

/-! ## 2. One connection -/

def Event.isConnected : Event → Bool
  | .connected _ => true
  | _ => false

def Event.isCreate : Event → Bool
  | .create _ _ => true
  | _ => false

/-- Cut off or not, a log begins what some exit leaves. -/
theorem Served.done (h : Served opt outpath fd o m) :
    ∃ e m', Done opt outpath fd e m' ∧ m <+: m' := by
  cases o with
  | none => exact h
  | some e => exact ⟨e, m, h, List.prefix_rfl⟩

/-- `closesOf g` counts up to the next event that hands `g` out again, so a longer log can only have
    more closes. -/
theorem closesOf_prefix {a b : List Event} (h : a <+: b) (g : Int) : closesOf g a ≤ closesOf g b := by
  obtain ⟨t, rfl⟩ := h
  by_cases hg : Handed g a
  · rw [closesOf_handed hg]
  · rw [closesOf_append hg]
    exact Nat.le_add_right _ _

-- What each kind of event adds to the count.

theorem not_hands_close {fd g : Int} : ¬ (Event.close fd).hands = some g := by
  rintro ⟨⟩

theorem closesOf_close (fd : Int) (l : List Event) : closesOf fd (.close fd :: l) = 1 + closesOf fd l := by
  rw [closesOf, if_neg not_hands_close, if_pos rfl]

theorem closesOf_close_ne {g : Int} (h : g ≠ fd) (l : List Event) :
    closesOf g (.close fd :: l) = closesOf g l := by
  rw [closesOf, if_neg not_hands_close, if_neg fun e => h (Event.close.inj e).symm, Nat.zero_add]

theorem closesOf_response (g : Int) (r : Resp) (l : List Event) :
    closesOf g (.response r :: l) = closesOf g l := by
  rw [closesOf, if_neg (by rintro ⟨⟩), if_neg (by rintro ⟨⟩), Nat.zero_add]

theorem closesOf_create_neg {out : Int} (h : out < 0) (g : Int) (path : List UInt8) (l : List Event) :
    closesOf g (.create path out :: l) = closesOf g l := by
  have hh : (Event.create path out).hands = none := if_pos h
  rw [closesOf, hh, if_neg (by rintro ⟨⟩), if_neg (by rintro ⟨⟩), Nat.zero_add]

theorem closesOf_create {out : Int} (h : 0 ≤ out) (g : Int) (path : List UInt8) (l : List Event) :
    closesOf g (.create path out :: l) = if g = out then 0 else closesOf g l := by
  have hh : (Event.create path out).hands = some out := if_neg (by omega)
  rw [closesOf, hh]
  by_cases hg : g = out
  · rw [if_pos hg, if_pos (by rw [hg])]
  · rw [if_neg hg, if_neg fun e => hg (Option.some.inj e).symm, if_neg (by rintro ⟨⟩), Nat.zero_add]

/-- The connection is closed once. -/
theorem Done.closes_self (h : Done opt outpath fd e m) : closesOf fd m = 1 := by
  cases h with
  | early => rw [closesOf_close]; rfl
  | answered => rw [closesOf_response, closesOf_close]; rfl
  | refused _ _ hneg => rw [closesOf_response, closesOf_create_neg hneg, closesOf_close]; rfl
  | file _ _ hpos _ hne _ =>
    rw [closesOf_response, closesOf_create hpos, if_neg hne.symm, closesOf_close_ne hne.symm,
      closesOf_close]
    rfl
  | kept _ _ hne _ =>
    rw [closesOf_response, closesOf_create (by decide), if_neg hne.symm, closesOf_close]
    rfl

/-- Nothing else that was open before is closed. -/
theorem Done.closes_ne {g : Int} (hg : g ≠ fd) (h : Done opt outpath fd e m) : closesOf g m = 0 := by
  cases h with
  | early => rw [closesOf_close_ne hg]; rfl
  | answered => rw [closesOf_response, closesOf_close_ne hg]; rfl
  | refused _ _ hneg => rw [closesOf_response, closesOf_create_neg hneg, closesOf_close_ne hg]; rfl
  | file _ _ hpos _ _ _ =>
    rw [closesOf_response, closesOf_create hpos]
    split
    · rfl
    · rename_i hout
      rw [closesOf_close_ne hout, closesOf_close_ne hg]
      rfl
  | kept _ _ _ _ =>
    rw [closesOf_response, closesOf_create (by decide)]
    split
    · rfl
    · rw [closesOf_close_ne hg]
      rfl

/-- The last connection is the last. -/
theorem Served.not_connected (h : Served opt outpath fd o m) (g : Int) : Event.connected g ∉ m := by
  obtain ⟨e, m', hd, hp⟩ := h.done
  intro hm
  have hm' := hp.subset hm
  cases hd <;> simp at hm'

/-- One connection opens at most one file. -/
theorem Served.creates (h : Served opt outpath fd o m) : m.countP Event.isCreate ≤ 1 := by
  obtain ⟨e, m', hd, hp⟩ := h.done
  refine Nat.le_trans (hp.sublist.countP_le) ?_
  cases hd <;> simp [List.countP_cons, Event.isCreate]

/-- How often a file is closed that was given `out`. -/
def closesDue (out : Int) : Nat := if out = stdoutFileno then 0 else 1

/-- The output is opened for an accepted response, and closed once if it is not taken for stdout. -/
theorem Done.create (h : Done opt outpath fd e m) {pre post : List Event} {path : List UInt8} {out : Int}
    (hm : m = pre ++ .create path out :: post) : Named outpath path ∧
      (∃ r, pre = [.response r] ∧ Accepted opt r) ∧ (0 ≤ out → closesOf out post = closesDue out) ∧
      (e = .ok ∨ e = .io) := by
  -- the `create` is the second event, where there is one: every other place of `m` is another event
  cases h with
  | early =>
    rcases pre with _ | ⟨x, pre⟩
    · cases hm
    · simp at hm
  | answered =>
    rcases pre with _ | ⟨x, _ | ⟨y, pre⟩⟩
    · cases hm
    · cases hm
    · simp at hm
  | @refused r path' out' hacc hout hneg =>
    rcases pre with _ | ⟨x, _ | ⟨y, _ | ⟨z, pre⟩⟩⟩
    · cases hm
    · cases hm
      exact ⟨hout, ⟨r, rfl, hacc⟩, fun h0 => absurd h0 (by omega), .inr rfl⟩
    · cases hm
    · simp at hm
  | @file _ r path' out' hacc hout hpos hstd hne he =>
    rcases pre with _ | ⟨x, _ | ⟨y, _ | ⟨z, _ | ⟨u, pre⟩⟩⟩⟩
    · cases hm
    · cases hm
      refine ⟨hout, ⟨r, rfl, hacc⟩, fun _ => ?_, he⟩
      rw [closesOf_close, closesOf_close_ne hne, closesDue, if_neg hstd]
      rfl
    · cases hm
    · cases hm
    · simp at hm
  | @kept _ r path' hacc hout hne he =>
    rcases pre with _ | ⟨x, _ | ⟨y, _ | ⟨z, pre⟩⟩⟩
    · cases hm
    · cases hm
      refine ⟨hout, ⟨r, rfl, hacc⟩, fun _ => ?_, he⟩
      rw [closesOf_close_ne hne, closesDue, if_pos rfl]
      rfl
    · cases hm
    · simp at hm

/-! ## 3. A chain of connections -/

-- The log of a race is sockets and closes, so what is looked for lies behind it.

theorem Quiet.not_connected (h : Quiet l) (g : Int) : Event.connected g ∉ l := by
  intro hm
  obtain ⟨fd, h | h⟩ := h.only _ hm <;> cases h

theorem Quiet.not_create (h : Quiet l) (path : List UInt8) (out : Int) :
    Event.create path out ∉ l := by
  intro hm
  obtain ⟨fd, h | h⟩ := h.only _ hm <;> cases h

theorem Quiet.countP {p : Event → Bool} (h : Quiet l) (hs : ∀ fd, p (.socket fd) = false)
    (hc : ∀ fd, p (.close fd) = false) : l.countP p = 0 := by
  rw [List.countP_eq_zero]
  intro e he
  obtain ⟨fd, rfl | rfl⟩ := h.only e he
  · rw [hs]; exact Bool.false_ne_true
  · rw [hc]; exact Bool.false_ne_true

/-- An event that is not in the first part lies in the second. -/
theorem split_after {a b pre post : List Event} {x : Event} (hx : x ∉ a)
    (h : a ++ b = pre ++ x :: post) : ∃ pre', pre = a ++ pre' ∧ b = pre' ++ x :: post := by
  rcases List.append_eq_append_iff.mp h with ⟨t, ht, hb⟩ | ⟨t, ht, hb⟩
  · exact ⟨t, ht, hb⟩
  · cases t with
    | nil => exact ⟨[], by rw [ht, List.append_nil, List.append_nil], hb.symm⟩
    | cons y t =>
      obtain ⟨rfl, -⟩ := List.cons.inj hb
      exact absurd (ht ▸ List.mem_append_right pre List.mem_cons_self) hx

/-- **A run closes nothing but its own.** -/
theorem session_own (h : Session opt outpath hops o l) : Own l := by
  induction h with
  | idle hq => exact hq.own
  | @last _ _ l m fd hq hh hs =>
    refine hq.own.append fun g => ?_
    by_cases hg : g = fd
    -- the connection is the race's winner, handed out in `l`; any other descriptor it leaves alone
    · exact .inl (hg ▸ hh)
    · obtain ⟨e, m', hd, hp⟩ := hs.done
      refine .inr ?_
      rw [closesOf, if_neg (by rintro ⟨⟩), if_neg (by rintro ⟨⟩), Nat.zero_add]
      exact Nat.le_zero.mp (hd.closes_ne hg ▸ closesOf_prefix hp g)
  | @redirect _ _ l m fd r hq hh _ ih =>
    refine hq.own.append fun g => ?_
    by_cases hg : g = fd
    · exact .inl (hg ▸ hh)
    · refine .inr ?_
      rw [closesOf, if_neg (by rintro ⟨⟩), if_neg (by rintro ⟨⟩), Nat.zero_add, closesOf_response,
        closesOf_close_ne hg]
      exact ih g

/-- Each connection takes one of the hops. -/
theorem session_connections (h : Session opt outpath hops o l) :
    l.countP Event.isConnected ≤ hops := by
  induction h with
  | idle hq => rw [hq.countP (fun _ => rfl) fun _ => rfl]; exact Nat.zero_le _
  | @last hops _ l m fd hq hh hs =>
    have hm : m.countP Event.isConnected = 0 := by
      rw [List.countP_eq_zero]
      intro x hx hc
      cases x with
      | connected g => exact hs.not_connected g hx
      | _ => cases hc
    rw [List.countP_append, hq.countP (fun _ => rfl) fun _ => rfl, List.countP_cons_of_pos rfl, hm]
    omega
  | redirect hq hh _ ih =>
    rw [List.countP_append, hq.countP (fun _ => rfl) fun _ => rfl, List.countP_cons_of_pos rfl,
      List.countP_cons_of_neg Bool.false_ne_true, List.countP_cons_of_neg Bool.false_ne_true]
    omega

/-- **Every connection** is closed once, and before the next one is opened. -/
theorem session_closed (h : Session opt outpath hops o l) {pre post : List Event} {fd : Int}
    (hl : l = pre ++ .connected fd :: post) : (o ≠ none → closesOf fd post = 1) ∧
      ∀ mid g rest, post = mid ++ .connected g :: rest → closesOf fd mid = 1 := by
  induction h generalizing pre with
  | idle hq =>
    exact absurd (hl ▸ List.mem_append_right pre List.mem_cons_self) (hq.not_connected fd)
  | @last _ o l m fd' hq hh hs =>
    obtain ⟨pre', -, hm⟩ := split_after (hq.not_connected fd) hl
    cases pre' with
    -- the connection asked about is this one, and nothing is connected behind it
    | nil =>
      obtain ⟨hfd, rfl⟩ := List.cons.inj hm
      obtain rfl : fd' = fd := Event.connected.inj hfd
      refine ⟨fun ho => ?_, fun mid g rest hp => ?_⟩
      · cases o with
        | none => exact absurd rfl ho
        | some e => exact Done.closes_self hs
      · exact absurd (hp ▸ List.mem_append_right mid List.mem_cons_self) (hs.not_connected g)
    | cons x pre' =>
      obtain ⟨-, rfl⟩ := List.cons.inj hm
      exact absurd (List.mem_append_right pre' List.mem_cons_self) (hs.not_connected fd)
  | @redirect _ o l m fd' r hq hh hs ih =>
    obtain ⟨pre', -, hm⟩ := split_after (hq.not_connected fd) hl
    cases pre' with
    -- this one: it is closed right behind its response, and the rest of the chain closes only its own
    | nil =>
      obtain ⟨hfd, rfl⟩ := List.cons.inj hm
      obtain rfl : fd' = fd := Event.connected.inj hfd
      refine ⟨fun _ => ?_, fun mid g rest hp => ?_⟩
      · rw [closesOf_response, closesOf_close, session_own hs fd']
      · obtain ⟨mid', rfl, hrest⟩ := split_after (a := [.response r, .close fd']) (by simp) hp
        have h0 : closesOf fd' mid' = 0 := by
          have hle := closesOf_prefix (⟨_, hrest.symm⟩ : mid' <+: m) fd'
          rw [session_own hs fd'] at hle
          exact Nat.le_zero.mp hle
        show closesOf fd' (.response r :: .close fd' :: mid') = 1
        rw [closesOf_response, closesOf_close, h0]
    -- or one of the rest
    | cons x pre' =>
      obtain ⟨-, hm⟩ := List.cons.inj hm
      obtain ⟨pre'', -, hrest⟩ := split_after (a := [.response r, .close fd']) (by simp) hm
      exact ih hrest

/-- Only the last connection can open a file. -/
theorem session_creates (h : Session opt outpath hops o l) : l.countP Event.isCreate ≤ 1 := by
  induction h with
  | idle hq => rw [hq.countP (fun _ => rfl) fun _ => rfl]; exact Nat.zero_le _
  | last hq hh hs =>
    rw [List.countP_append, hq.countP (fun _ => rfl) fun _ => rfl,
      List.countP_cons_of_neg Bool.false_ne_true, Nat.zero_add]
    exact hs.creates
  | redirect hq hh _ ih =>
    rw [List.countP_append, hq.countP (fun _ => rfl) fun _ => rfl,
      List.countP_cons_of_neg Bool.false_ne_true, List.countP_cons_of_neg Bool.false_ne_true,
      List.countP_cons_of_neg Bool.false_ne_true, Nat.zero_add]
    exact ih

/-- **The output file** is opened right after an accepted response, then closed once if it is not
    taken for stdout, and `fetch` returns nothing but `EX_OK` or `EX_IO` after that. -/
theorem session_create (h : Session opt outpath hops o l) {pre post : List Event} {path : List UInt8}
    {out : Int} (hl : l = pre ++ .create path out :: post) : Named outpath path ∧
      (∃ pre' r, pre = pre' ++ [.response r] ∧ Accepted opt r) ∧
      ∀ e, o = some e → (0 ≤ out → closesOf out post = closesDue out) ∧ (e = .ok ∨ e = .io) := by
  induction h generalizing pre with
  | idle hq =>
    exact absurd (hl ▸ List.mem_append_right pre List.mem_cons_self) (hq.not_create path out)
  | @last _ o l m fd hq hh hs =>
    obtain ⟨pre', rfl, hm⟩ := split_after (hq.not_create path out) hl
    obtain ⟨pre'', rfl, hsplit⟩ := split_after (a := [.connected fd]) (by simp) hm
    obtain ⟨e, m', hd, t, ht⟩ := hs.done
    have hm' : m' = pre'' ++ .create path out :: (post ++ t) := by
      rw [← ht, hsplit, List.append_assoc, List.cons_append]
    obtain ⟨hout, ⟨r, rfl, hacc⟩, -⟩ := hd.create hm'
    refine ⟨hout, ⟨l ++ [.connected fd], r, by rw [List.append_assoc], hacc⟩, ?_⟩
    rintro e rfl
    obtain ⟨-, -, hc⟩ := Done.create hs hsplit
    exact hc
  | @redirect _ o l m fd r hq hh hs ih =>
    obtain ⟨pre', rfl, hm⟩ := split_after (hq.not_create path out) hl
    obtain ⟨pre'', rfl, hsplit⟩ :=
      split_after (a := [.connected fd, .response r, .close fd]) (by simp) hm
    obtain ⟨hout, ⟨pre', r', rfl, hacc⟩, hc⟩ := ih hsplit
    exact ⟨hout, ⟨l ++ ([.connected fd, .response r, .close fd] ++ pre'), r', by
      rw [List.append_assoc, List.append_assoc], hacc⟩, hc⟩

end

/-! ## 4. Runs -/

section

variable {σ : Type} {sys : Sys σ} {fds : σ → Set Int} {w : World σ} {L : List Event} {F : Set Int}

/-- A `close` is logged and gives the descriptor back; a run cut off before it has done neither. -/
theorem seen_close (hk : Descriptors sys.kernel fds) {fd : Int} (h : seen fds w = (L, F)) :
    wp (sys.close fd) (fun _ w' => seen fds w' = (L ++ [.close fd], F \ {fd}))
      (fun w' => seen fds w' = (L, F)) w := by
  obtain ⟨rfl, rfl⟩ := Prod.mk.inj h
  exact Prod.ext rfl (hk.close fd w.kernel)

/-- An `open` is logged with what it returned. -/
theorem seen_create (hk : Descriptors sys.kernel fds) {path : List UInt8} (h : seen fds w = (L, F)) :
    wp (sys.create path) (fun out w' => w'.log = L ++ [.create path out] ∧
      HandsOut out F (fds w'.kernel)) (fun _ => False) w := by
  obtain ⟨rfl, rfl⟩ := Prod.mk.inj h
  exact ⟨rfl, hk.create path w.kernel⟩

/-- `conn_close` logs one close, whatever the TLS library does before it. -/
theorem seen_connClose (hk : Descriptors sys.kernel fds) (ht : sys.tls.Contained fds) {c : Conn}
    (hfd : 0 ≤ c.fd) (h : seen fds w = (L, F)) :
    wp (connClose sys c) (fun _ w' => seen fds w' = (L ++ [.close c.fd], F \ {c.fd}))
      (fun w' => seen fds w' = (L, F)) w := by
  refine wp_bind_leaves h (leaves_tlsClose hk ht c) (fun _ w' h' => ?_) fun w' h' => h'
  rw [if_pos hfd]
  exact seen_close hk h'

/-- A body is reads and writes: it opens and closes nothing. -/
theorem leaves_body (hk : Descriptors sys.kernel fds) (ht : sys.tls.Contained fds) (n : Nat) (c : Conn)
    (r : Resp) (hdrbuf : List UInt8) (out : Int) : Leaves (seen fds) (body sys n c r hdrbuf out) :=
  leaves_ite
    (leaves_chunkLoop (leaves_connRead hk ht c n) (leaves_writeAll hk out n) n (r.pending hdrbuf) 0)
    (leaves_bodyPlain (leaves_connRead hk ht c n) (leaves_writeAll hk out n) n hdrbuf r 0)

/-- It fails with `EX_IO` only, so that nothing else is returned once the file is open. -/
theorem body_code {n : Nat} {c : Conn} {r : Resp} {hdrbuf : List UInt8} {out : Int} {w' : World σ}
    {x : Exit × Int} (h : Ends (body sys n c r hdrbuf out) w x w') : x.1 = .ok ∨ x.1 = .io := by
  unfold body at h
  split at h
  · exact chunkLoop_code h
  · exact bodyPlain_code h

/-- No file was given the descriptor of standard output. -/
def StdoutKept (l : List Event) : Prop := ∀ path, .create path stdoutFileno ∉ l

theorem stdoutKept_append {a b : List Event} : StdoutKept (a ++ b) ↔ StdoutKept a ∧ StdoutKept b := by
  unfold StdoutKept
  simp only [List.mem_append, not_or, forall_and]

theorem stdoutKept_cons {x : Event} {a : List Event} :
    StdoutKept (x :: a) ↔ (∀ path, x ≠ .create path stdoutFileno) ∧ StdoutKept a := by
  unfold StdoutKept
  simp only [List.mem_cons, not_or, forall_and, ne_eq, eq_comm]

theorem stdoutKept_response (r : Resp) : StdoutKept [.response r] := by
  rw [stdoutKept_cons]
  exact ⟨fun _ => by rintro ⟨⟩, nofun⟩

theorem Quiet.stdoutKept {a : List Event} (h : Quiet a) : StdoutKept a := fun path => h.not_create path _

/-- What a run with at most `hops` connections started from, and what it was logged to do. -/
structure LoggedAs (fds : σ → Set Int) (opt : Options) (outpath : Option (List UInt8)) (w₀ : World σ)
    (hops : Nat) (o : Option Exit) (w : World σ) (l : List Event) : Prop where
  log : w.log = w₀.log ++ l
  session : Session opt outpath hops o l
  /-- a file that was taken for standard output is still open, -/
  opens : o ≠ none → StdoutKept l → fds w.kernel = fds w₀.kernel
  /-- which there is none where that was open from the start -/
  stdout : stdoutFileno ∈ fds w₀.kernel → StdoutKept l

/-- A run as the lemmas below follow it, with the log that it left. -/
def Logged (fds : σ → Set Int) (opt : Options) (outpath : Option (List UInt8)) (w₀ : World σ) (hops : Nat)
    (o : Option Exit) (w : World σ) : Prop :=
  ∃ l, LoggedAs fds opt outpath w₀ hops o w l

/-- The place of a run where the connection `fd` is open, after a race with the log `l`. -/
structure Open (fds : σ → Set Int) (w₀ : World σ) (fd : Int) (l : List Event) : Prop where
  quiet : Quiet l
  handed : Handed fd l
  pos : 0 ≤ fd
  fresh : fd ∉ fds w₀.kernel

variable {w₀ : World σ} {outpath : Option (List UInt8)} {fd : Int} {l m : List Event} {hops : Nat}

/-- `seen` at a place where the connection is open and `m` came after `connected`. -/
def opened (fds : σ → Set Int) (w₀ : World σ) (fd : Int) (l m : List Event) : List Event × Set Int :=
  (w₀.log ++ (l ++ .connected fd :: m), fds w₀.kernel ∪ {fd})

/-- The state in which `conn_open` succeeds. -/
theorem opened_of_connected (h : Connected fds w₀ w fd) :
    ∃ l, Open fds w₀ fd l ∧ seen fds w = opened fds w₀ fd l [] := by
  obtain ⟨w₁, h, rfl⟩ := h
  obtain ⟨l, hl, hq, hh⟩ := h.log
  obtain ⟨hpos, hfresh⟩ := h.fresh fd List.mem_cons_self
  refine ⟨l, ⟨hq, hh fd List.mem_cons_self, hpos, hfresh⟩, Prod.ext ?_ ?_⟩
  · show w₁.log ++ [.connected fd] = _
    rw [hl, List.append_assoc]
    rfl
  · show fds w₁.kernel = _
    rw [h.opens]
    unfold opened
    ext g
    simp

/-- A connection that is closed leaves open what was open before it. -/
theorem Open.closed (ho : Open fds w₀ fd l) : (fds w₀.kernel ∪ {fd}) \ {fd} = fds w₀.kernel := by
  ext g
  have hne : g ∈ fds w₀.kernel → g ≠ fd := fun hg e => ho.fresh (e ▸ hg)
  simp only [Set.mem_sdiff, Set.mem_union, Set.mem_singleton_iff]
  tauto

/-- The files that were opened beside the connection, with `m` behind `connected` and `F` open now: all
    are closed again unless one was taken for standard output, which that may only be if it was closed. -/
structure Beside (fds : σ → Set Int) (w₀ : World σ) (fd : Int) (m : List Event) (F : Set Int) : Prop where
  opens : StdoutKept m → F \ {fd} = fds w₀.kernel
  stdout : stdoutFileno ∈ fds w₀.kernel → StdoutKept m

/-- Beside the connection nothing is open where nothing was taken for standard output. -/
theorem Open.beside (ho : Open fds w₀ fd l) (hm : StdoutKept m) :
    Beside fds w₀ fd m (fds w₀.kernel ∪ {fd}) :=
  ⟨fun _ => ho.closed, fun _ => hm⟩

/-- Only what comes behind `connected` can be a file. -/
theorem Open.stdoutKept (ho : Open fds w₀ fd l) : StdoutKept (l ++ .connected fd :: m) ↔ StdoutKept m := by
  rw [stdoutKept_append, stdoutKept_cons]
  exact ⟨fun h => h.2.2, fun h => ⟨ho.quiet.stdoutKept, fun _ => by rintro ⟨⟩, h⟩⟩

/-- A run that is cut off while the connection is open. -/
theorem Open.cut (ho : Open fds w₀ fd l) {e : Exit} {m' : List Event} (hd : Done sys.opt outpath fd e m')
    (hp : m <+: m') {F : Set Int} (h : seen fds w = (w₀.log ++ (l ++ .connected fd :: m), F))
    (hstd : stdoutFileno ∈ fds w₀.kernel → StdoutKept m) :
    Logged fds sys.opt outpath w₀ (hops + 1) none w :=
  ⟨l ++ .connected fd :: m, congrArg Prod.fst h, .last ho.quiet ho.handed ⟨e, m', hd, hp⟩,
    fun hn => absurd rfl hn, fun h1 => ho.stdoutKept.mpr (hstd h1)⟩

/-- **Every exit** of `fetch` with an open connection closes it. -/
theorem Open.connClose (hk : Descriptors sys.kernel fds) (ht : sys.tls.Contained fds)
    (ho : Open fds w₀ fd l) {tls : Bool} {e : Exit} {m' : List Event} {F : Set Int}
    (hd : Done sys.opt outpath fd e m') (h : seen fds w = (w₀.log ++ (l ++ .connected fd :: m), F))
    (hb : Beside fds w₀ fd m F) (hm : m' = m ++ [.close fd]) :
    wp (connClose sys ⟨fd, tls⟩) (fun _ w' => Logged fds sys.opt outpath w₀ (hops + 1) (some e) w')
      (Logged fds sys.opt outpath w₀ (hops + 1) none) w := by
  subst hm
  have hkept : StdoutKept (m ++ [.close fd]) ↔ StdoutKept m := by
    rw [stdoutKept_append, stdoutKept_cons]
    exact ⟨fun h => h.1, fun h => ⟨h, fun _ => by rintro ⟨⟩, fun _ h => by cases h⟩⟩
  refine wp_mono (seen_connClose hk ht ho.pos h) ?_ ?_
  · intro _ w' h'
    refine ⟨l ++ .connected fd :: (m ++ [.close fd]), ?_,
      Session.last (o := some e) ho.quiet ho.handed hd, fun _ hm => ?_, fun h1 => ?_⟩
    · rw [show w'.log = _ from congrArg Prod.fst h', List.append_assoc, List.append_assoc]
      rfl
    · exact (congrArg Prod.snd h').trans (hb.opens (hkept.mp (ho.stdoutKept.mp hm)))
    · exact ho.stdoutKept.mpr (hkept.mpr (hb.stdout h1))
  · intro w' h'
    exact ho.cut hd (List.prefix_append _ _) h' hb.stdout

/-- The same for an exit that returns its code at once. -/
theorem Open.closing (hk : Descriptors sys.kernel fds) (ht : sys.tls.Contained fds)
    (ho : Open fds w₀ fd l) {tls : Bool} {e : Exit} {m' : List Event} {F : Set Int}
    (hd : Done sys.opt outpath fd e m') (h : seen fds w = (w₀.log ++ (l ++ .connected fd :: m), F))
    (hb : Beside fds w₀ fd m F) (hm : m' = m ++ [.close fd]) :
    wp (closing sys ⟨fd, tls⟩ e) (fun e w' => Logged fds sys.opt outpath w₀ (hops + 1) (some e) w')
      (Logged fds sys.opt outpath w₀ (hops + 1) none) w :=
  wp_bind.mpr (ho.connClose hk ht hd h hb hm)

/-- The rest of a chain after a redirect. -/
theorem Open.redirect (ho : Open fds w₀ fd l) {r : Resp} {w' : World σ} {o : Option Exit}
    (h : seen fds w = ((opened fds w₀ fd l [.response r]).1 ++ [.close fd], (fds w₀.kernel ∪ {fd}) \ {fd}))
    (hrest : Logged fds sys.opt outpath w hops o w') :
    Logged fds sys.opt outpath w₀ (hops + 1) o w' := by
  obtain ⟨hlog, hfds⟩ := Prod.mk.inj h
  -- the chain goes on from what was open at the start
  have hback : fds w.kernel = fds w₀.kernel := hfds.trans ho.closed
  obtain ⟨m, hm, hs, hopens, hstd⟩ := hrest
  have hkept : StdoutKept (.response r :: .close fd :: m) ↔ StdoutKept m := by
    rw [stdoutKept_cons, stdoutKept_cons]
    exact ⟨fun h => h.2.2, fun h => ⟨fun _ => by rintro ⟨⟩, fun _ => by rintro ⟨⟩, h⟩⟩
  refine ⟨l ++ .connected fd :: .response r :: .close fd :: m, ?_, .redirect ho.quiet ho.handed hs,
    fun hne hk => ?_, fun h1 => ?_⟩
  · rw [hm, hlog, opened, List.append_assoc, List.append_assoc, List.append_assoc]
    rfl
  · exact (hopens hne (hkept.mp (ho.stdoutKept.mp hk))).trans hback
  · exact ho.stdoutKept.mpr (hkept.mpr (hstd (hback ▸ h1)))

section

variable (hk : Descriptors sys.kernel fds) (ht : sys.tls.Contained fds) (ho : Open fds w₀ fd l)
include hk ht ho

/-- The request and the headers. -/
theorem exchange_wp (n : Nat) {tls : Bool} (u : Url) (hdrbuf : List UInt8)
    (h : seen fds w = opened fds w₀ fd l []) :
    wp (exchange sys n ⟨fd, tls⟩ u hdrbuf) (fun res w' => match res with
        | .error e => Logged fds sys.opt outpath w₀ (hops + 1) (some e) w'
        | .ok (r, _) => seen fds w' = opened fds w₀ fd l [.response r])
      (Logged fds sys.opt outpath w₀ (hops + 1) none) w := by
  have hcut : ∀ w', seen fds w' = opened fds w₀ fd l [] →
      Logged fds sys.opt outpath w₀ (hops + 1) none w' :=
    fun w' h' => ho.cut (.early .ok) (List.nil_prefix) h' fun _ => nofun
  have hfail : ∀ e w', seen fds w' = opened fds w₀ fd l [] → wp (connClose sys ⟨fd, tls⟩)
      (fun _ w' => Logged fds sys.opt outpath w₀ (hops + 1) (some e) w')
      (Logged fds sys.opt outpath w₀ (hops + 1) none) w' :=
    fun e w' h' => ho.connClose hk ht (.early e) h' (ho.beside nofun) rfl
  unfold exchange
  split
  -- the request does not fit its buffer
  · exact wp_bind.mpr (hfail .url w h)
  · refine wp_bind_leaves h (leaves_connWrite hk ht _ n _) (fun sent w' h' => ?_) hcut
    split
    -- it could not be sent
    · exact wp_bind.mpr (hfail .io w' h')
    · refine wp_bind_leaves h' (leaves_readHeaders (leaves_connRead hk ht _ n) n hdrbuf) ?_ hcut
      rintro ⟨rc, r, hdrbuf⟩ w' h'
      dsimp only
      split
      -- the headers could not be read
      · exact wp_bind.mpr (hfail rc w' h')
      · obtain ⟨hlog, hfds⟩ := Prod.mk.inj h'
        refine Prod.ext ?_ hfds
        show w'.log ++ [.response r] = w₀.log ++ (l ++ .connected fd :: [.response r])
        rw [hlog, List.append_assoc, List.append_assoc]
        rfl

/-- The body to standard output. -/
theorem transfer_stdout_wp (n : Nat) {tls : Bool} (r : Resp) (hdrbuf : List UInt8)
    (h : seen fds w = opened fds w₀ fd l [.response r]) :
    wp (transfer sys n ⟨fd, tls⟩ r hdrbuf stdoutFileno)
      (fun e w' => Logged fds sys.opt outpath w₀ (hops + 1) (some e) w')
      (Logged fds sys.opt outpath w₀ (hops + 1) none) w := by
  refine wp_bind_leaves h (leaves_body hk ht n _ r hdrbuf _) ?_ ?_
  · rintro ⟨rc, written⟩ w' h'
    dsimp only
    rw [if_neg (by simp)]
    exact ho.closing hk ht (.answered rc r) h' (ho.beside (stdoutKept_response r)) rfl
  · intro w' h'
    exact ho.cut (.answered .ok r) ⟨_, rfl⟩ h' fun _ => stdoutKept_response r

/-- A file that was just opened, with descriptor `out`. -/
structure Created (fds : σ → Set Int) (w₀ : World σ) (fd : Int) (l : List Event) (r : Resp)
    (path : List UInt8) (out : Int) (w : World σ) : Prop where
  pos : 0 ≤ out
  fresh : out ∉ fds w₀.kernel
  apart : out ≠ fd
  seen : seen fds w = (w₀.log ++ (l ++ .connected fd :: [.response r, .create path out]),
    insert out (fds w₀.kernel ∪ {fd}))

/-- The body to a file of its own. -/
theorem transfer_file_wp (n : Nat) {tls : Bool} {r : Resp} (hdrbuf : List UInt8) {path : List UInt8}
    {out : Int} (hacc : Accepted sys.opt r) (hpath : Named outpath path) (hstd : out ≠ stdoutFileno)
    (hc : Created fds w₀ fd l r path out w) :
    wp (transfer sys n ⟨fd, tls⟩ r hdrbuf out)
      (fun e w' => Logged fds sys.opt outpath w₀ (hops + 1) (some e) w')
      (Logged fds sys.opt outpath w₀ (hops + 1) none) w := by
  have hkept : StdoutKept [.response r, .create path out] := by
    rw [stdoutKept_cons, stdoutKept_cons]
    exact ⟨fun _ => by rintro ⟨⟩, fun _ he => hstd (Event.create.inj he).2, nofun⟩
  have hcut : ∀ w', Hget.seen fds w' = Hget.seen fds w →
      Logged fds sys.opt outpath w₀ (hops + 1) none w' := fun w' h' =>
    ho.cut (.file hacc hpath hc.pos hstd hc.apart (.inl rfl)) ⟨_, rfl⟩ (h'.trans hc.seen) fun _ => hkept
  refine wp_bind.mpr (wp_mono (wp_and_ends ((leaves_body hk ht n _ r hdrbuf out).wp w)
    fun _ _ => body_code) ?_ hcut)
  rintro ⟨rc, written⟩ w' ⟨hrc, hs⟩
  dsimp only
  rw [if_pos hstd]
  -- the file is closed first, and the connection after it
  refine wp_bind.mpr (wp_mono (seen_close hk (hs.trans hc.seen)) ?_ fun w' h' => hcut w' (h'.trans hc.seen.symm))
  intro _ w' h'
  have hopen : Hget.seen fds w' = opened fds w₀ fd l [.response r, .create path out, .close out] := by
    refine h'.trans (Prod.ext ?_ ?_)
    · show w₀.log ++ (l ++ .connected fd :: [.response r, .create path out]) ++ [.close out] =
        w₀.log ++ (l ++ .connected fd :: [.response r, .create path out, .close out])
      rw [List.append_assoc, List.append_assoc]
      rfl
    · show insert out (fds w₀.kernel ∪ {fd}) \ {out} = fds w₀.kernel ∪ {fd}
      ext g
      have hg : g ∈ fds w₀.kernel → g ≠ out := fun hg e => hc.fresh (e ▸ hg)
      have hg' : g = fd → g ≠ out := fun hg e => hc.apart (e.symm.trans hg)
      simp only [Set.mem_sdiff, Set.mem_union, Set.mem_singleton_iff, Set.mem_insert_iff]
      tauto
  have hkept' : StdoutKept [.response r, .create path out, .close out] :=
    stdoutKept_append (a := [.response r, .create path out]).mpr ⟨hkept, by
      rw [stdoutKept_cons]
      exact ⟨fun _ => by rintro ⟨⟩, nofun⟩⟩
  exact ho.closing hk ht (.file hacc hpath hc.pos hstd hc.apart hrc) hopen (ho.beside hkept') rfl

/-- The body to a file that `fetch` takes for standard output, and does not close. -/
theorem transfer_kept_wp (n : Nat) {tls : Bool} {r : Resp} (hdrbuf : List UInt8) {path : List UInt8}
    (hacc : Accepted sys.opt r) (hpath : Named outpath path)
    (hc : Created fds w₀ fd l r path stdoutFileno w) :
    wp (transfer sys n ⟨fd, tls⟩ r hdrbuf stdoutFileno)
      (fun e w' => Logged fds sys.opt outpath w₀ (hops + 1) (some e) w')
      (Logged fds sys.opt outpath w₀ (hops + 1) none) w := by
  -- it was handed out, so it was not open before
  have hclosed : stdoutFileno ∈ fds w₀.kernel → StdoutKept [.response r, .create path stdoutFileno] :=
    fun h1 => absurd h1 hc.fresh
  refine wp_bind.mpr (wp_mono (wp_and_ends ((leaves_body hk ht n _ r hdrbuf stdoutFileno).wp w)
    fun _ _ => body_code) ?_ fun w' hs => ?_)
  · rintro ⟨rc, written⟩ w' ⟨hrc, hs⟩
    dsimp only
    rw [if_neg (by simp)]
    refine ho.closing hk ht (.kept hacc hpath hc.apart hrc) (hs.trans hc.seen) ⟨fun hk => ?_, hclosed⟩ rfl
    exact absurd (List.mem_cons_of_mem _ List.mem_cons_self) (hk path)
  · exact ho.cut (.kept hacc hpath hc.apart (.inl rfl)) ⟨_, rfl⟩ (hs.trans hc.seen) hclosed

/-- An accepted response. -/
theorem deliver_wp (n : Nat) {tls : Bool} {r : Resp} (hdrbuf : List UInt8) (hacc : Accepted sys.opt r)
    (h : seen fds w = opened fds w₀ fd l [.response r]) :
    wp (deliver sys n ⟨fd, tls⟩ r hdrbuf outpath)
      (fun e w' => Logged fds sys.opt outpath w₀ (hops + 1) (some e) w')
      (Logged fds sys.opt outpath w₀ (hops + 1) none) w := by
  cases hpath : outpath with
  | none => exact transfer_stdout_wp hk ht ho n r hdrbuf h
  | some path =>
    unfold deliver
    dsimp only
    split
    · exact transfer_stdout_wp hk ht ho n r hdrbuf h
    · rename_i hdash
      have hnamed : Named (some path) path := ⟨rfl, hdash⟩
      refine wp_bind.mpr (wp_mono (seen_create hk h) ?_ fun _ hc => hc.elim)
      rintro out w' ⟨hlog, hfds⟩
      have hl : w'.log = w₀.log ++ (l ++ .connected fd :: [.response r, .create path out]) := by
        rw [hlog, List.append_assoc, List.append_assoc]
        rfl
      unfold HandsOut at hfds
      split
      -- `open` failed
      · rename_i hneg
        rw [if_pos hneg] at hfds
        have hkept : StdoutKept [.response r, .create path out] := by
          rw [stdoutKept_cons, stdoutKept_cons]
          refine ⟨fun _ => by rintro ⟨⟩, fun _ he => ?_, nofun⟩
          obtain rfl : out = stdoutFileno := (Event.create.inj he).2
          exact absurd hneg (by decide)
        exact ho.closing hk ht (.refused hacc hnamed hneg) (Prod.ext hl hfds) (ho.beside hkept) rfl
      · rename_i hpos
        rw [if_neg hpos] at hfds
        obtain ⟨hnew, hfds⟩ := hfds
        have hc : Created fds w₀ fd l r path out w' :=
          ⟨Int.not_lt.mp hpos, fun hm => hnew (.inl hm), fun e => hnew (.inr e), Prod.ext hl hfds⟩
        -- `out != STDOUT_FILENO` is asked of the descriptor, not of the option
        by_cases hstd : out = stdoutFileno
        · subst hstd
          exact transfer_kept_wp hk ht ho n hdrbuf hacc hnamed hc
        · exact transfer_file_wp hk ht ho n hdrbuf hacc hnamed hstd hc

end

/-- **Every run of `fetch`**, by induction on its rounds: a redirect that it follows leaves the
    world open to the rest of the chain as it was before. -/
theorem fetch_wp (hk : Descriptors sys.kernel fds) (ht : sys.tls.Contained fds) (n : Nat)
    (hdrbuf urlstr : List UInt8) (outpath : Option (List UInt8)) (depth : Nat) (w₀ : World σ) :
    wp (fetch sys n hdrbuf urlstr outpath depth)
      (fun e w' => Logged fds sys.opt outpath w₀ (maxRedirects + 1 - depth) (some e) w')
      (Logged fds sys.opt outpath w₀ (maxRedirects + 1 - depth) none) w₀ := by
  induction n generalizing hdrbuf urlstr depth w₀ with
  | zero =>
    exact ⟨[], (List.append_nil _).symm, .idle quiet_nil, fun h => absurd rfl h, fun _ => nofun⟩
  | succ n ih =>
    -- nothing was opened yet: the log is empty
    have hidle : ∀ hops o, Logged fds sys.opt outpath w₀ hops o w₀ :=
      fun _ _ => ⟨[], (List.append_nil _).symm, .idle quiet_nil, fun _ _ => rfl, fun _ => nofun⟩
    unfold fetch
    split
    -- too many redirects
    · exact hidle _ _
    · rename_i hdepth
      obtain ⟨hops, hhops⟩ : ∃ hops, maxRedirects + 1 - depth = hops + 1 :=
        ⟨maxRedirects - depth, by omega⟩
      rw [hhops]
      split
      -- a malformed URL
      · exact hidle _ _
      · rename_i u hu
        refine wp_bind.mpr (wp_mono (connOpen_wp hk ht n u.host u.port u.tls w₀) ?_ ?_)
        · intro res w h
          cases res with
          | error rc =>
            obtain ⟨l, hl, hq, -⟩ := h.log
            exact ⟨l, hl, .idle hq, fun _ _ => by rw [h.opens]; simp, fun _ => hq.stdoutKept⟩
          | ok c =>
            obtain ⟨l, ho, h⟩ := opened_of_connected h
            refine wp_bind.mpr (wp_mono (exchange_wp hk ht ho n u hdrbuf h) ?_ fun _ hc => hc)
            rintro (rc | ⟨r, hdrbuf⟩) w h
            · exact h
            · have h : seen fds w = opened fds w₀ c.fd l [.response r] := h
              dsimp only
              split
              -- a redirect that is followed, to a URL or to what is none
              · split
                · refine wp_bind.mpr (wp_mono (seen_connClose hk ht ho.pos h) ?_ fun w h => ?_)
                  · intro _ w h
                    have hleft : maxRedirects + 1 - (depth + 1) = hops := by omega
                    have hrest := ih hdrbuf r.location (depth + 1) w
                    rw [hleft] at hrest
                    exact wp_mono hrest (fun _ _ => ho.redirect h) fun _ => ho.redirect h
                  · exact ho.cut (.answered .ok r) ⟨_, rfl⟩ h fun _ => stdoutKept_response r
                · exact ho.closing hk ht (.answered .redirect r) h (ho.beside (stdoutKept_response r)) rfl
              -- an error, or a response whose body is delivered
              · rename_i hfollow
                split
                · exact ho.closing hk ht (.answered .http r) h (ho.beside (stdoutKept_response r)) rfl
                · rename_i hstatus
                  have hacc : Accepted sys.opt r := ⟨Int.not_le.mp hstatus, Bool.eq_false_iff.mpr hfollow⟩
                  exact deliver_wp hk ht ho n hdrbuf hacc h
        -- cut off while connecting
        · rintro w ⟨held, h⟩
          obtain ⟨l, hl, hq, -⟩ := h.log
          exact ⟨l, hl, .idle hq, fun hn => absurd rfl hn, fun _ => hq.stdoutKept⟩

end

/-! ## 5. Connections and the output file -/

/-- What the log `l` of a run that returned `o` (`none`: that was cut off) says in any case. -/
structure Orderly (opt : Options) (outpath : Option (List UInt8)) (o : Option Exit) (l : List Event) :
    Prop where
  /-- there are not more connections than redirects allowed, and one -/
  connections : l.countP Event.isConnected ≤ maxRedirects + 1
  /-- each is closed once, -/
  closed : ∀ ⦃pre fd post⦄, l = pre ++ .connected fd :: post → o ≠ none → closesOf fd post = 1
  /-- and before the next one is opened -/
  inTurn : ∀ ⦃pre fd mid g post⦄, l = pre ++ .connected fd :: (mid ++ .connected g :: post) →
    closesOf fd mid = 1
  /-- the output file is opened at most once, -/
  creates : l.countP Event.isCreate ≤ 1
  /-- right after a response that is neither an error nor followed as a redirect -/
  accepted : ∀ ⦃pre path out post⦄, l = pre ++ .create path out :: post → outpath = some path ∧
    ∃ pre' r, pre = pre' ++ [.response r] ∧ r.status < 400 ∧ follows opt r = false
  /-- a run that returned another code never opened it -/
  untouched : ∀ e, o = some e → e ≠ .ok → e ≠ .io → ∀ path out, .create path out ∉ l

/-- Connections and the output file are consistent: the file is closed once, too. -/
structure Consistent (opt : Options) (outpath : Option (List UInt8)) (o : Option Exit) (l : List Event) :
    Prop extends Orderly opt outpath o l where
  outputClosed : ∀ ⦃pre path out post⦄, l = pre ++ .create path out :: post → o ≠ none → 0 ≤ out →
    closesOf out post = 1

section

variable {opt : Options} {outpath : Option (List UInt8)} {o : Option Exit} {l : List Event}

/-- Everything but the close of the file holds of every session. -/
theorem orderly_of_session (h : Session opt outpath (maxRedirects + 1) o l) : Orderly opt outpath o l where
  connections := session_connections h
  closed pre fd post hl := (session_closed h hl).1
  inTurn pre fd mid g post hl := (session_closed h hl).2 mid g post rfl
  creates := session_creates h
  accepted pre path out post hl := by
    obtain ⟨hout, hacc, -⟩ := session_create h hl
    exact ⟨hout.1, hacc⟩
  untouched e he hok hio path out hm := by
    obtain ⟨pre, post, hl⟩ := List.append_of_mem hm
    exact ((session_create h hl).2.2 e he).2.elim hok hio

/-- The one thing that can go wrong. -/
theorem consistent_iff_of_session (h : Session opt outpath (maxRedirects + 1) o l) :
    Consistent opt outpath o l ↔ (o ≠ none → StdoutKept l) := by
  constructor
  · intro hc ho path hm
    obtain ⟨e, rfl⟩ := Option.ne_none_iff_exists'.mp ho
    obtain ⟨pre, post, hl⟩ := List.append_of_mem hm
    have h1 := hc.outputClosed hl ho (by decide)
    rw [((session_create h hl).2.2 e rfl).1 (by decide)] at h1
    exact absurd h1 (by decide)
  · intro hkept
    refine ⟨orderly_of_session h, fun pre path out post hl ho hpos => ?_⟩
    obtain ⟨e, rfl⟩ := Option.ne_none_iff_exists'.mp ho
    have hout : out ≠ stdoutFileno := by
      rintro rfl
      exact hkept ho path (hl ▸ List.mem_append_right pre List.mem_cons_self)
    rw [((session_create h hl).2.2 e rfl).1 hpos, closesDue, if_neg hout]

/-- Without a file that is named nothing is opened. -/
theorem stdoutKept_of_session {hops : Nat} (h : Session opt outpath hops o l)
    (hout : outpath = none ∨ outpath = some dash) : StdoutKept l := by
  intro path hm
  obtain ⟨pre, post, hl⟩ := List.append_of_mem hm
  obtain ⟨⟨rfl, hdash⟩, -⟩ := session_create h hl
  rcases hout with hout | hout
  · cases hout
  · exact hdash (Option.some.inj hout)

end

/-- **`fetch` keeps connections and the output file consistent** in exactly the runs in which `open`
    does not give the file the descriptor of standard output, whatever the servers, the kernel and
    the TLS library do, and wherever it is cut off; and it cannot give it that one where it was open
    at the start. -/
theorem fetch_consistent_iff {σ : Type} {sys : Sys σ} {fds : σ → Set Int} {w : World σ}
    (hk : Descriptors sys.kernel fds) (ht : sys.tls.Contained fds)
    (n : Nat) (hdrbuf urlstr : List UInt8) (outpath : Option (List UInt8)) :
    ∃ l, (fetch sys n hdrbuf urlstr outpath 0 w).2.log = w.log ++ l ∧
      Orderly sys.opt outpath (fetch sys n hdrbuf urlstr outpath 0 w).1 l ∧
      (Consistent sys.opt outpath (fetch sys n hdrbuf urlstr outpath 0 w).1 l ↔
        ((fetch sys n hdrbuf urlstr outpath 0 w).1 ≠ none → StdoutKept l)) ∧
      (stdoutFileno ∈ fds w.kernel ∨ outpath = none ∨ outpath = some dash → StdoutKept l) := by
  have h := fetch_wp hk ht n hdrbuf urlstr outpath 0 w
  have hlogged : Logged fds sys.opt outpath w (maxRedirects + 1) (fetch sys n hdrbuf urlstr outpath 0 w).1
      (fetch sys n hdrbuf urlstr outpath 0 w).2 := by
    unfold wp at h
    rcases hx : fetch sys n hdrbuf urlstr outpath 0 w with ⟨_ | e, w'⟩
    · rw [hx] at h
      exact h
    · rw [hx] at h
      exact h
  obtain ⟨l, hl, hs, -, hstd⟩ := hlogged
  exact ⟨l, hl, orderly_of_session hs, consistent_iff_of_session hs,
    fun hout => hout.elim hstd (stdoutKept_of_session hs)⟩

/-! ## 6. A chain of two -/

/-- A kernel whose connects succeed at once; each connection plays the next of the replies. -/
structure Tape where
  opens : List Int
  replies : List (List UInt8)
  rest : List UInt8

/-- A descriptor above all that are open. -/
def Tape.next (s : Tape) : Int := s.opens.foldl max 0 + 1

def Tape.kernel : Kernel Tape where
  getaddrinfo _ _ s := (.ok [⟨2, 1, 6, []⟩], s)
  socket _ s := (s.next, { s with opens := s.next :: s.opens })
  getfl _ s := (2, s)
  setfl _ _ s := (0, s)
  connect _ _ s := (.ok (), { s with rest := s.replies.headD [], replies := s.replies.tail })
  poll _ _ s := (.error .other, s)
  getsockopt _ s := ((0, 0), s)
  setsockopt _ _ _ s := (0, s)
  recv _ len s := (.ok (s.rest.take len), { s with rest := s.rest.drop len })
  send _ buf s := (.ok buf.length, s)
  write _ buf s := (.ok buf.length, s)
  create _ s := (s.next, { s with opens := s.next :: s.opens })
  close fd s := (0, { s with opens := s.opens.filter (· ≠ fd) })

/-- No TLS: `http://` does not ask for any. -/
def Tape.tls : Tls (World Tape) where
  init := pure ()
  seed := pure 0
  configDefaults := pure 0
  confAuthmode _ := pure ()
  parseFile _ := pure 0
  confCaChain := pure ()
  confRng := pure ()
  setup := pure 0
  setHostname _ := pure 0
  handshake _ := pure (-1)
  verifyResult := pure 0
  write _ _ := pure (.error (-1))
  read _ _ := pure (.error (-1))
  closeNotify _ := pure 0
  free := pure ()

def Tape.sys : Sys Tape := ⟨Tape.kernel, Tape.tls, ⟨false, true, 30, [], true⟩⟩

def Tape.fds (s : Tape) : Set Int := {fd | fd ∈ s.opens}

theorem Tape.descriptors : Descriptors Tape.sys.kernel Tape.fds where
  socket ai s := handsOut_above s.opens
  create path s := handsOut_above s.opens
  close fd s := by
    ext g
    show g ∈ s.opens.filter (· ≠ fd) ↔ g ∈ s.opens ∧ g ≠ fd
    rw [List.mem_filter, decide_eq_true_iff]
  getaddrinfo _ _ _ := rfl
  getfl _ _ := rfl
  setfl _ _ _ := rfl
  connect _ _ _ := rfl
  poll _ _ _ := rfl
  getsockopt _ _ := rfl
  setsockopt _ _ _ _ := rfl
  recv _ _ _ := rfl
  send _ _ _ := rfl
  write _ _ _ := rfl

theorem Tape.contained : Tape.sys.tls.Contained Tape.fds where
  init := leaves_pure _
  seed := leaves_pure _
  configDefaults := leaves_pure _
  confAuthmode _ := leaves_pure _
  parseFile _ := leaves_pure _
  confCaChain := leaves_pure _
  confRng := leaves_pure _
  setup := leaves_pure _
  setHostname _ := leaves_pure _
  verifyResult := leaves_pure _
  free := leaves_pure _
  handshake _ _ := leaves_pure _
  write _ _ _ := leaves_pure _
  read _ _ _ := leaves_pure _
  closeNotify _ _ := leaves_pure _

/-- `HTTP/1.1 302 CRLF Location: http://b CRLF CRLF`, then `HTTP/1.1 200 CRLF CRLF hi`. -/
def twoReplies : List (List UInt8) :=
  [[72, 84, 84, 80, 47, 49, 46, 49, 32, 51, 48, 50, 13, 10, 76, 111, 99, 97, 116, 105, 111, 110, 58, 32,
      104, 116, 116, 112, 58, 47, 47, 98, 13, 10, 13, 10],
    [72, 84, 84, 80, 47, 49, 46, 49, 32, 50, 48, 48, 13, 10, 13, 10, 104, 105]]

/-- Standard input, output and error are open. -/
def Tape.start : World Tape := ⟨⟨[0, 1, 2], twoReplies, []⟩, []⟩

/-- `http://a`, into the file `f`. -/
def Tape.run : Proc (World Tape) Exit :=
  fetch Tape.sys 9 (List.replicate hdrbufSize 0) (httpScheme ++ [97]) (some [102]) 0

/-- A redirect, and the body of the second response into the file. -/
theorem fetch_consistent_redirect :
    ∃ l, (Tape.run Tape.start).2.log = Tape.start.log ++ l ∧
      Consistent Tape.sys.opt (some [102]) (Tape.run Tape.start).1 l := by
  have hopen : stdoutFileno ∈ Tape.fds Tape.start.kernel := List.mem_cons_of_mem _ List.mem_cons_self
  obtain ⟨l, hl, -, hiff, hstd⟩ := fetch_consistent_iff (w := Tape.start) Tape.descriptors Tape.contained 9
    (List.replicate hdrbufSize 0) (httpScheme ++ [97]) (some [102])
  unfold Tape.run
  exact ⟨l, hl, hiff.mpr fun _ => hstd (.inl hopen)⟩

example : (Tape.run Tape.start).1 = some .ok := by decide +kernel

/-! ## 7. Descriptors 0 and 1 closed -/

/-- The lowest descriptor that is not open, as POSIX has it, in a table of sixteen. -/
def Tape.lowest (s : Tape) : Int × Tape :=
  match ((List.range 16).map Int.ofNat).find? fun fd => decide (fd ∉ s.opens) with
  | none => (-1, s)
  | some fd => (fd, { s with opens := fd :: s.opens })

def Tape.posix : Kernel Tape :=
  { Tape.kernel with
    socket := fun _ => Tape.lowest
    create := fun _ => Tape.lowest }

theorem Tape.handsOut_lowest (s : Tape) : HandsOut s.lowest.1 (Tape.fds s) (Tape.fds s.lowest.2) := by
  unfold Tape.lowest HandsOut
  split
  · exact (if_pos (show (-1 : Int) < 0 by decide)).mpr rfl
  · rename_i fd hfind
    obtain ⟨i, -, rfl⟩ := List.mem_map.mp (List.mem_of_find?_eq_some hfind)
    have hnew := List.find?_some hfind
    rw [decide_eq_true_iff] at hnew
    refine (if_neg (Int.not_lt.mpr (Int.natCast_nonneg i))).mpr ⟨hnew, ?_⟩
    ext g
    exact List.mem_cons

theorem Tape.descriptors_posix : Descriptors Tape.posix Tape.fds :=
  { Tape.descriptors with
    socket := fun _ s => Tape.handsOut_lowest s
    create := fun _ s => Tape.handsOut_lowest s }

def Tape.posixSys : Sys Tape := ⟨Tape.posix, Tape.tls, ⟨false, true, 30, [], true⟩⟩

/-- `<&- >&-`, and a server that answers `200` and `hi`. -/
def Tape.detached : World Tape := ⟨⟨[2], twoReplies.tail, []⟩, []⟩

/-- `http://a` into the file `f`: the socket is 0, the file 1, and `EX_OK` leaves the file open. -/
theorem not_fetch_consistent : Descriptors Tape.posixSys.kernel Tape.fds ∧
    Tape.posixSys.tls.Contained Tape.fds ∧
    (fetch Tape.posixSys 9 (List.replicate hdrbufSize 0) (httpScheme ++ [97]) (some [102]) 0 Tape.detached).1 =
      some .ok ∧
    ∀ l, (fetch Tape.posixSys 9 (List.replicate hdrbufSize 0) (httpScheme ++ [97]) (some [102]) 0
        Tape.detached).2.log = Tape.detached.log ++ l →
      ¬ Consistent Tape.posixSys.opt (some [102]) (some .ok) l := by
  refine ⟨Tape.descriptors_posix, Tape.contained, by decide +kernel, fun l hl hc => ?_⟩
  obtain ⟨r, rfl⟩ : ∃ r, l = [.socket 0, .connected 0, .response r] ++
      .create [102] stdoutFileno :: [.close 0] := by
    rw [← show _ = l from hl]
    exact ⟨⟨200, -1, false, [], 16, 2⟩, by decide +kernel⟩
  have h1 := hc.outputClosed rfl (by decide) (by decide)
  rw [closesOf_close_ne (by decide)] at h1
  cases h1

end P4Linux.Hget
