import P4Linux.Hget.Connect

/-!
# A peer that has stalled

* `Stalled` -- the worlds in which every `recv` and every `send` on the socket times out, and that a
  timeout leads to again; `PassesOn` -- what mbedTLS makes of callbacks that only ask for more;
* `bio_waits` -- the callbacks turn a timeout into such a request;
* `connRead_plain`, `connWrite_plain` -- without TLS the timeout is an error;
* `connRead_tls`, `connWrite_tls`, `handshake_hangs` -- with TLS it is a reason to try again;
* `gives_up_iff` -- **a stalled peer cannot hang hget** if and only if the connection is plain.
-/

namespace P4Linux.Hget

open Proc

variable {σ : Type}

/-! ## 1. Timeouts -/

/-- From the stall on the world is in `Q`: each call on the socket returns `EAGAIN` when its time is up. -/
structure Stalled (k : Kernel σ) (fd : Int) (Q : World σ → Prop) : Prop where
  recv : ∀ w len, Q w → (k.recv fd len w.kernel).1 = .error .eagain ∧
    Q { w with kernel := (k.recv fd len w.kernel).2 }
  send : ∀ w buf, Q w → (k.send fd buf w.kernel).1 = .error .eagain ∧
    Q { w with kernel := (k.send fd buf w.kernel).2 }

/-- Callbacks that have nothing to offer but a request to be called again. -/
structure Bio.Waits (b : Bio (World σ)) (Q : World σ → Prop) : Prop where
  recv : ∀ w len, Q w → ∃ w', Ends (b.recv len) w (.error wantRead) w' ∧ Q w'
  send : ∀ w buf, Q w → ∃ w', Ends (b.send buf) w wantWrite w' ∧ Q w'

/-- **mbedTLS returns `WANT_READ` or `WANT_WRITE` when its callbacks do**; in `Q` it has no record left
    that it could answer with and not call them. -/
structure Tls.PassesOn (tls : Tls (World σ)) (Q : World σ → Prop) : Prop where
  handshake : ∀ b : Bio (World σ), b.Waits Q → ∀ w, Q w →
    ∃ rc w', Ends (tls.handshake b) w rc w' ∧ (rc = wantRead ∨ rc = wantWrite) ∧ Q w'
  read : ∀ b : Bio (World σ), b.Waits Q → ∀ w len, Q w →
    ∃ rc w', Ends (tls.read b len) w (.error rc) w' ∧ (rc = wantRead ∨ rc = wantWrite) ∧ Q w'
  write : ∀ b : Bio (World σ), b.Waits Q → ∀ w buf, buf ≠ [] → Q w →
    ∃ rc w', Ends (tls.write b buf) w (.error rc) w' ∧ (rc = wantRead ∨ rc = wantWrite) ∧ Q w'

section

variable {sys : Sys σ} {c : Conn} {Q : World σ → Prop}

theorem call_ends {α : Type} (f : σ → α × σ) (w : World σ) :
    Ends (call f) w (f w.kernel).1 { w with kernel := (f w.kernel).2 } := rfl

/-- **The callbacks take a timeout for an interruption.** -/
theorem bio_waits {fd : Int} (hs : Stalled sys.kernel fd Q) : (bio sys fd).Waits Q where
  recv w len hw := by
    obtain ⟨hr, hq⟩ := hs.recv w len hw
    have h := call_ends (sys.kernel.recv fd len) w
    rw [hr] at h
    exact ⟨_, h.bind (ends_pure.mpr ⟨rfl, rfl⟩), hq⟩
  send w buf hw := by
    obtain ⟨hr, hq⟩ := hs.send w buf hw
    have h := call_ends (sys.kernel.send fd buf) w
    rw [hr] at h
    exact ⟨_, h.bind (ends_pure.mpr ⟨rfl, rfl⟩), hq⟩

/-! ## 2. Without TLS -/

theorem connRead_plain (hs : Stalled sys.kernel c.fd Q) (ht : c.tls = false) (n len : Nat) {w : World σ}
    (hw : Q w) : Ends (connRead sys c (n + 1) len) w none
      { w with kernel := (sys.kernel.recv c.fd len w.kernel).2 } := by
  have h := call_ends (sys.kernel.recv c.fd len) w
  rw [(hs.recv w len hw).1] at h
  unfold connRead
  rw [ht]
  exact h.bind (ends_pure.mpr ⟨rfl, rfl⟩)

theorem connWrite_plain (hs : Stalled sys.kernel c.fd Q) (ht : c.tls = false) (n : Nat) {buf : List UInt8}
    (hbuf : buf ≠ []) {w : World σ} (hw : Q w) : Ends (connWrite sys c (n + 1) buf) w false
      { w with kernel := (sys.kernel.send c.fd buf w.kernel).2 } := by
  have h := call_ends (sys.kernel.send c.fd buf) w
  rw [(hs.send w buf hw).1] at h
  unfold connWrite
  rw [ht, if_neg hbuf]
  exact h.bind (ends_pure.mpr ⟨rfl, rfl⟩)

/-! ## 3. With TLS -/

theorem want_ne_zero {rc : Int} (h : rc = wantRead ∨ rc = wantWrite) : rc ≠ 0 := by
  rcases h with rfl | rfl
  · decide
  · decide

section

variable (hs : Stalled sys.kernel c.fd Q) (hp : sys.tls.PassesOn Q)
include hs hp

/-- Induction on the rounds: a timeout leads to the next call. -/
theorem connRead_tls (ht : c.tls = true) (n len : Nat) {w w' : World σ} {res : Option (List UInt8)}
    (hw : Q w) : ¬ Ends (connRead sys c n len) w res w' := by
  induction n generalizing w with
  | zero => exact not_ends_stuck
  | succ n ih =>
    intro h
    unfold connRead at h
    rw [ht] at h
    obtain ⟨r, t, hr, h⟩ := ends_bind.mp h
    obtain ⟨rc, t', hr', hrc, hq⟩ := hp.read _ (bio_waits hs) w len hw
    obtain ⟨rfl, rfl⟩ := hr.unique hr'
    dsimp only at h
    rw [if_pos hrc] at h
    exact ih hq h

theorem connWrite_tls (ht : c.tls = true) (n : Nat) {buf : List UInt8} (hbuf : buf ≠ []) {w w' : World σ}
    {ok : Bool} (hw : Q w) : ¬ Ends (connWrite sys c n buf) w ok w' := by
  induction n generalizing w with
  | zero => exact not_ends_stuck
  | succ n ih =>
    intro h
    unfold connWrite at h
    rw [ht, if_neg hbuf] at h
    obtain ⟨r, t, hr, h⟩ := ends_bind.mp h
    obtain ⟨rc, t', hr', hrc, hq⟩ := hp.write _ (bio_waits hs) w buf hbuf hw
    obtain ⟨rfl, rfl⟩ := hr.unique hr'
    dsimp only at h
    rw [if_pos hrc] at h
    exact ih hq h

theorem handshake_hangs (n : Nat) {w w' : World σ} {ok : Bool} (hw : Q w) :
    ¬ Ends (handshake sys c.fd n) w ok w' := by
  induction n generalizing w with
  | zero => exact not_ends_stuck
  | succ n ih =>
    intro h
    unfold handshake at h
    obtain ⟨rc, t, hr, h⟩ := ends_bind.mp h
    obtain ⟨rc', t', hr', hrc, hq⟩ := hp.handshake _ (bio_waits hs) w hw
    obtain ⟨rfl, rfl⟩ := hr.unique hr'
    rw [if_neg (want_ne_zero hrc), if_pos hrc] at h
    exact ih hq h

end

/-! ## 4. A peer that stops -/

/-- Given enough rounds, the program returns `a`. -/
def ComesTo {α : Type} (x : Nat → Proc (World σ) α) (w : World σ) (a : α) : Prop :=
  ∃ N w', ∀ n, N ≤ n → Ends (x n) w a w'

/-- `conn_read`, `conn_write` and the handshake of `conn_open`, called in `w`, return an error. -/
structure GivesUp (sys : Sys σ) (c : Conn) (w : World σ) : Prop where
  read : ∀ len, ComesTo (fun n => connRead sys c n len) w none
  write : ∀ buf, buf ≠ [] → ComesTo (fun n => connWrite sys c n buf) w false
  handshake : c.tls = true → ComesTo (handshake sys c.fd) w false

/-- **A stalled peer cannot hang hget** if and only if the connection is plain. -/
theorem gives_up_iff (hs : Stalled sys.kernel c.fd Q) (hp : sys.tls.PassesOn Q) {w : World σ} (hw : Q w) :
    GivesUp sys c w ↔ c.tls = false := by
  constructor
  · intro h
    cases ht : c.tls with
    | false => rfl
    | true =>
      obtain ⟨N, w', hread⟩ := h.read 1
      exact absurd (hread N (Nat.le_refl N)) (connRead_tls hs hp ht N 1 hw)
  · intro ht
    have hsucc : ∀ n : Nat, 1 ≤ n → ∃ m, n = m + 1 := fun n hn => ⟨n - 1, by omega⟩
    refine ⟨fun len => ⟨1, { w with kernel := (sys.kernel.recv c.fd len w.kernel).2 }, fun n hn => ?_⟩,
      fun buf hbuf => ⟨1, { w with kernel := (sys.kernel.send c.fd buf w.kernel).2 }, fun n hn => ?_⟩,
      fun h => ?_⟩
    · obtain ⟨m, rfl⟩ := hsucc n hn
      exact connRead_plain hs ht m len hw
    · obtain ⟨m, rfl⟩ := hsucc n hn
      exact connWrite_plain hs ht m hbuf hw
    · rw [ht] at h
      cases h

end

/-! ## 5. A cable that was pulled -/

/-- Every call on a socket times out; the rest is as it may be. -/
def pulled : Kernel Unit where
  getaddrinfo _ _ s := (.ok [], s)
  socket _ s := (3, s)
  getfl _ s := (0, s)
  setfl _ _ s := (0, s)
  connect _ _ s := (.error .einprogress, s)
  poll _ _ s := (.ok (0, fun _ => 0), s)
  getsockopt _ s := ((0, 0), s)
  setsockopt _ _ _ s := (0, s)
  recv _ _ s := (.error .eagain, s)
  send _ _ s := (.error .eagain, s)
  write _ data s := (.ok data.length, s)
  create _ s := (4, s)
  close _ s := (0, s)

/-- A library that does nothing but call back: it wants a record header, and hands on what it wants. -/
def relay : Tls (World Unit) where
  init := pure ()
  seed := pure 0
  configDefaults := pure 0
  confAuthmode _ := pure ()
  parseFile _ := pure 0
  confCaChain := pure ()
  confRng := pure ()
  setup := pure 0
  setHostname _ := pure 0
  handshake b := do
    match ← b.recv 5 with
    | .error rc => pure rc
    | .ok _ => pure 0
  verifyResult := pure 0
  write b buf := do
    let n ← b.send buf
    if n < 0 then pure (.error n) else pure (.ok n.toNat)
  read b len := b.recv len
  closeNotify _ := pure 0
  free := pure ()

def pulledSys : Sys Unit := ⟨pulled, relay, ⟨false, true, 30, [], true⟩⟩

theorem pulled_stalled (fd : Int) : Stalled pulled fd fun _ => True where
  recv _ _ _ := ⟨rfl, trivial⟩
  send _ _ _ := ⟨rfl, trivial⟩

theorem relay_passesOn : relay.PassesOn fun _ => True where
  handshake b hb w _ := by
    obtain ⟨w', h, -⟩ := hb.recv w 5 trivial
    exact ⟨wantRead, w', h.bind (ends_pure.mpr ⟨rfl, rfl⟩), .inl rfl, trivial⟩
  read b hb w len _ := by
    obtain ⟨w', h, -⟩ := hb.recv w len trivial
    exact ⟨wantRead, w', h, .inl rfl, trivial⟩
  write b hb w buf _ _ := by
    obtain ⟨w', h, -⟩ := hb.send w buf trivial
    exact ⟨wantWrite, w', h.bind (ends_pure.mpr ⟨rfl, rfl⟩), .inr rfl, trivial⟩

theorem gives_up_plain : GivesUp pulledSys ⟨3, false⟩ ⟨(), []⟩ :=
  (gives_up_iff (pulled_stalled 3) relay_passesOn trivial).mpr rfl

/-- The same cable, and TLS: `conn_read` is still there after any number of timeouts. -/
theorem not_gives_up_tls : ¬ GivesUp pulledSys ⟨3, true⟩ ⟨(), []⟩ := by
  intro h
  obtain ⟨N, w', hread⟩ := h.read 1
  exact connRead_tls (pulled_stalled 3) relay_passesOn rfl N 1 trivial (hread N (Nat.le_refl N))

end P4Linux.Hget
