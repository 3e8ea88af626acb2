import P4Linux.Hget.Headers
import P4Linux.Hget.Plain
import P4Linux.Hget.Sys

/-!
# What passes over a connection

The assumptions on the kernel and on mbedTLS under which the bytes of a connection can be spoken of,
and what `conn_read`, `conn_write` and `write_all` make of them.

* `Receives`, `peer_streams` -- the bytes that the peer sends, up to where it closes;
* `Writes`, `peer_flows` -- and those that are written to the output;
* `Sends`, `connWrite_sent` -- the bytes that are sent to the peer.
-/

namespace P4Linux.Hget

open Proc

/-- A read of at most `len` bytes: they are the next ones, and none of them only at the end. -/
def Hands (before after : List UInt8) (len : Nat) (data : List UInt8) : Prop :=
  data.length ≤ len ∧ before = data ++ after ∧ (data = [] → 0 < len → before = [])

section

variable {σ : Type} (sys : Sys σ)

/-- **What the calls that read hand on**; `rem c`: what is still to come on the connection `c`. -/
structure Receives (rem : Conn → World σ → List UInt8) : Prop where
  recv : ∀ fd len w data w', Ends (call (sys.kernel.recv fd len)) w (.ok data) w' →
    Hands (rem ⟨fd, false⟩ w) (rem ⟨fd, false⟩ w') len data
  interrupted : ∀ fd len w w', Ends (call (sys.kernel.recv fd len)) w (.error .eintr) w' →
    rem ⟨fd, false⟩ w' = rem ⟨fd, false⟩ w
  read : ∀ fd len w data w', Ends (sys.tls.read (bio sys fd) len) w (.ok data) w' →
    Hands (rem ⟨fd, true⟩ w) (rem ⟨fd, true⟩ w') len data
  again : ∀ fd len w e w', Ends (sys.tls.read (bio sys fd) len) w (.error e) w' →
    e = wantRead ∨ e = wantWrite → rem ⟨fd, true⟩ w' = rem ⟨fd, true⟩ w
  closed : ∀ fd len w w', Ends (sys.tls.read (bio sys fd) len) w (.error peerCloseNotify) w' →
    rem ⟨fd, true⟩ w = [] ∧ rem ⟨fd, true⟩ w' = []

/-- **What `write` does to a file** (`out`), that reading does not write to it, and that files and the log
    are not the connection. -/
structure Writes (rem : Conn → World σ → List UInt8) (out : Int → World σ → List UInt8) : Prop where
  write : ∀ fd buf w m w', Ends (call (sys.kernel.write fd buf)) w (.ok m) w' →
    (∀ c, rem c w' = rem c w) ∧ out fd w' = out fd w ++ buf.take m
  interrupted : ∀ fd buf w w', Ends (call (sys.kernel.write fd buf)) w (.error .eintr) w' →
    (∀ c, rem c w' = rem c w) ∧ out fd w' = out fd w
  recv : ∀ fd len w res w' g, Ends (call (sys.kernel.recv fd len)) w res w' → out g w' = out g w
  read : ∀ fd len w res w' g, Ends (sys.tls.read (bio sys fd) len) w res w' → out g w' = out g w
  create : ∀ path c, Leaves (rem c) (sys.create path)
  note : ∀ e c, Leaves (rem c) (note e)

/-- **What the calls that send hand to the peer** (`sent`): what they say, or on a failure a part of it;
    and nothing else does. -/
structure Sends (sent : Conn → World σ → List UInt8) : Prop where
  send : ∀ fd buf w m w', Ends (call (sys.kernel.send fd buf)) w (.ok m) w' →
    sent ⟨fd, false⟩ w' = sent ⟨fd, false⟩ w ++ buf.take m
  interrupted : ∀ fd buf w w', Ends (call (sys.kernel.send fd buf)) w (.error .eintr) w' →
    sent ⟨fd, false⟩ w' = sent ⟨fd, false⟩ w
  sendFailed : ∀ fd buf w e w', Ends (call (sys.kernel.send fd buf)) w (.error e) w' →
    ∃ data, sent ⟨fd, false⟩ w' = sent ⟨fd, false⟩ w ++ data ∧ data <+: buf
  write : ∀ fd buf w m w', Ends (sys.tls.write (bio sys fd) buf) w (.ok m) w' →
    sent ⟨fd, true⟩ w' = sent ⟨fd, true⟩ w ++ buf.take m
  again : ∀ fd buf w e w', Ends (sys.tls.write (bio sys fd) buf) w (.error e) w' →
    e = wantRead ∨ e = wantWrite → sent ⟨fd, true⟩ w' = sent ⟨fd, true⟩ w
  writeFailed : ∀ fd buf w e w', Ends (sys.tls.write (bio sys fd) buf) w (.error e) w' →
    ∃ data, sent ⟨fd, true⟩ w' = sent ⟨fd, true⟩ w ++ data ∧ data <+: buf
  recv : ∀ fd len c, Leaves (sent c) (call (sys.kernel.recv fd len))
  read : ∀ fd len c, Leaves (sent c) (sys.tls.read (bio sys fd) len)
  closeNotify : ∀ fd c, Leaves (sent c) (sys.tls.closeNotify (bio sys fd))
  free : ∀ c, Leaves (sent c) sys.tls.free
  close : ∀ fd c, Leaves (sent c) (sys.close fd)
  note : ∀ e c, Leaves (sent c) (note e)

variable {sys} {rem sent : Conn → World σ → List UInt8} {out : Int → World σ → List UInt8}

/-! ## 1. Reading -/

/-- Induction on the rounds: a call that has to be made again has handed on nothing. -/
theorem connRead_hands (hr : Receives sys rem) {c : Conn} {n len : Nat} {w w' : World σ}
    {data : List UInt8} (h : Ends (connRead sys c n len) w (some data) w') :
    Hands (rem c w) (rem c w') len data := by
  obtain ⟨fd, tls⟩ := c
  induction n generalizing w with
  | zero => exact absurd h not_ends_stuck
  | succ n ih =>
    unfold connRead at h
    cases tls with
    | true =>
      rw [if_pos rfl] at h
      obtain ⟨res, t, hcall, h⟩ := ends_bind.mp h
      cases res with
      | ok got =>
        obtain ⟨he, rfl⟩ := ends_pure.mp h
        cases he
        exact hr.read _ _ _ _ _ hcall
      | error e =>
        dsimp only at h
        split at h
        · rename_i he
          rw [← hr.again _ _ _ _ _ hcall he]
          exact ih h
        · split at h
          · rename_i he
            subst he
            obtain ⟨he, rfl⟩ := ends_pure.mp h
            cases he
            obtain ⟨hw, ht⟩ := hr.closed _ _ _ _ hcall
            exact ⟨Nat.zero_le _, by rw [hw, ht]; rfl, fun _ _ => hw⟩
          · cases (ends_pure.mp h).1
    | false =>
      rw [if_neg Bool.false_ne_true] at h
      obtain ⟨res, t, hcall, h⟩ := ends_bind.mp h
      cases res with
      | ok got =>
        obtain ⟨he, rfl⟩ := ends_pure.mp h
        cases he
        exact hr.recv _ _ _ _ _ hcall
      | error e =>
        cases e with
        | eintr =>
          rw [← hr.interrupted _ _ _ _ hcall]
          exact ih h
        | eagain => cases (ends_pure.mp h).1
        | einprogress => cases (ends_pure.mp h).1
        | other => cases (ends_pure.mp h).1

/-- **The bytes of a connection** come in order. -/
theorem peer_streams (hr : Receives sys rem) (n : Nat) (c : Conn) (fd : Int) :
    Streams (peer sys n c fd) (rem c) where
  read w len data w' h := by
    obtain ⟨hlen, hrem, -⟩ := connRead_hands hr h
    exact ⟨hlen, hrem⟩

/-! ## 2. Writing -/

theorem connRead_out (hw : Writes sys rem out) {c : Conn} {n len : Nat} {w w' : World σ}
    {res : Option (List UInt8)} (g : Int) (h : Ends (connRead sys c n len) w res w') :
    out g w' = out g w := by
  induction n generalizing w with
  | zero => exact absurd h not_ends_stuck
  | succ n ih =>
    unfold connRead at h
    split at h
    · obtain ⟨r, t, hcall, h⟩ := ends_bind.mp h
      have hout : out g t = out g w := hw.read _ _ _ _ _ g hcall
      rw [← hout]
      cases r with
      | ok got =>
        obtain ⟨-, rfl⟩ := ends_pure.mp h
        rfl
      | error e =>
        dsimp only at h
        split at h
        · exact ih h
        · split at h
          · obtain ⟨-, rfl⟩ := ends_pure.mp h
            rfl
          · obtain ⟨-, rfl⟩ := ends_pure.mp h
            rfl
    · obtain ⟨r, t, hcall, h⟩ := ends_bind.mp h
      have hout : out g t = out g w := hw.recv _ _ _ _ _ g hcall
      rw [← hout]
      rcases r with (_ | _ | _ | _) | got
      · exact ih h
      · obtain ⟨-, rfl⟩ := ends_pure.mp h
        rfl
      · obtain ⟨-, rfl⟩ := ends_pure.mp h
        rfl
      · obtain ⟨-, rfl⟩ := ends_pure.mp h
        rfl
      · obtain ⟨-, rfl⟩ := ends_pure.mp h
        rfl

/-- Induction on the rounds: what a call did not take is given to the next. -/
theorem writeAll_out (hw : Writes sys rem out) {fd : Int} {n : Nat} {buf : List UInt8} {w w' : World σ}
    (c : Conn) (h : Ends (writeAll sys fd n buf) w true w') :
    rem c w' = rem c w ∧ out fd w' = out fd w ++ buf := by
  induction n generalizing buf w with
  | zero => exact absurd h not_ends_stuck
  | succ n ih =>
    unfold writeAll at h
    split at h
    · rename_i hnil
      obtain ⟨-, rfl⟩ := ends_pure.mp h
      rw [hnil, List.append_nil]
      exact ⟨rfl, rfl⟩
    · obtain ⟨res, t, hcall, h⟩ := ends_bind.mp h
      rcases res with (_ | _ | _ | _) | m
      · obtain ⟨hrem, hout⟩ := hw.interrupted _ _ _ _ hcall
        rw [← hrem c, ← hout]
        exact ih h
      · cases (ends_pure.mp h).1
      · cases (ends_pure.mp h).1
      · cases (ends_pure.mp h).1
      · obtain ⟨hrem, hout⟩ := hw.write _ _ _ _ _ hcall
        obtain ⟨hrem', hout'⟩ := ih h
        rw [hrem', hout', hout, List.append_assoc, List.take_append_drop]
        exact ⟨hrem c, rfl⟩

/-- **A transfer** takes the bytes of a connection to a file. -/
theorem peer_flows (hr : Receives sys rem) (hw : Writes sys rem out) (n : Nat) (c : Conn) (fd : Int) :
    Flows (peer sys n c fd) (rem c) (out fd) where
  read w len res w' h := by
    refine ⟨connRead_out hw fd h, fun data hdata => ?_⟩
    subst hdata
    exact connRead_hands hr h
  write w data w' h := writeAll_out hw c h

/-! ## 3. Sending -/

/-- Behind `before` a part of `buf` was handed on, and all of it if `ok`. -/
def Passed (ok : Bool) (buf before after : List UInt8) : Prop :=
  ∃ data, after = before ++ data ∧ data <+: buf ∧ (ok = true → data = buf)

/-- A call that took `m` bytes, and the calls for the rest. -/
theorem Passed.more {ok : Bool} {buf before mid after : List UInt8} {m : Nat}
    (hmid : mid = before ++ buf.take m) (h : Passed ok (buf.drop m) mid after) :
    Passed ok buf before after := by
  obtain ⟨data, hafter, hpre, hall⟩ := h
  refine ⟨buf.take m ++ data, by rw [hafter, hmid, List.append_assoc], ?_, fun hok => ?_⟩
  · conv_rhs => rw [← List.take_append_drop m buf]
    exact (List.prefix_append_right_inj _).mpr hpre
  · rw [hall hok, List.take_append_drop]

theorem Passed.stop {buf before after : List UInt8} (h : ∃ data, after = before ++ data ∧ data <+: buf) :
    Passed false buf before after := by
  obtain ⟨data, hafter, hpre⟩ := h
  exact ⟨data, hafter, hpre, fun hok => by cases hok⟩

/-- Induction on the rounds: what a call did not take is given to the next. -/
theorem connWrite_sent (hs : Sends sys sent) {c : Conn} {n : Nat} {buf : List UInt8} {w w' : World σ}
    {ok : Bool} (h : Ends (connWrite sys c n buf) w ok w') : Passed ok buf (sent c w) (sent c w') := by
  obtain ⟨fd, tls⟩ := c
  induction n generalizing buf w with
  | zero => exact absurd h not_ends_stuck
  | succ n ih =>
    unfold connWrite at h
    split at h
    · rename_i hnil
      obtain ⟨-, rfl⟩ := ends_pure.mp h
      exact ⟨[], (List.append_nil _).symm, List.nil_prefix, fun _ => hnil.symm⟩
    · cases tls with
      | true =>
        rw [if_pos rfl] at h
        obtain ⟨res, t, hcall, h⟩ := ends_bind.mp h
        rcases res with e | _ | m
        · dsimp only at h
          split at h
          · rename_i he
            rw [← hs.again _ _ _ _ _ hcall he]
            exact ih h
          · obtain ⟨rfl, rfl⟩ := ends_pure.mp h
            exact .stop (hs.writeFailed _ _ _ _ _ hcall)
        · obtain ⟨rfl, rfl⟩ := ends_pure.mp h
          exact .stop ⟨_, hs.write _ _ _ _ _ hcall, List.take_prefix _ _⟩
        · exact .more (hs.write _ _ _ _ _ hcall) (ih h)
      | false =>
        rw [if_neg Bool.false_ne_true] at h
        obtain ⟨res, t, hcall, h⟩ := ends_bind.mp h
        rcases res with (_ | _ | _ | _) | _ | m
        · rw [← hs.interrupted _ _ _ _ hcall]
          exact ih h
        · obtain ⟨rfl, rfl⟩ := ends_pure.mp h
          exact .stop (hs.sendFailed _ _ _ _ _ hcall)
        · obtain ⟨rfl, rfl⟩ := ends_pure.mp h
          exact .stop (hs.sendFailed _ _ _ _ _ hcall)
        · obtain ⟨rfl, rfl⟩ := ends_pure.mp h
          exact .stop (hs.sendFailed _ _ _ _ _ hcall)
        · obtain ⟨rfl, rfl⟩ := ends_pure.mp h
          exact .stop ⟨_, hs.send _ _ _ _ _ hcall, List.take_prefix _ _⟩
        · exact .more (hs.send _ _ _ _ _ hcall) (ih h)

theorem leaves_connRead_sent (hs : Sends sys sent) (c d : Conn) (n len : Nat) :
    Leaves (sent d) (connRead sys c n len) := by
  induction n with
  | zero => exact leaves_stuck
  | succ n ih =>
    refine leaves_ite (leaves_bind (hs.read _ _ _) ?_) (leaves_bind (hs.recv _ _ _) ?_)
    · intro r
      rcases r with e | data
      · exact leaves_ite ih (leaves_ite (leaves_pure _) (leaves_pure _))
      · exact leaves_pure _
    · intro r
      rcases r with (_ | _ | _ | _) | data
      · exact ih
      · exact leaves_pure _
      · exact leaves_pure _
      · exact leaves_pure _
      · exact leaves_pure _

theorem leaves_connClose_sent (hs : Sends sys sent) (c d : Conn) : Leaves (sent d) (connClose sys c) :=
  leaves_bind (leaves_ite (leaves_bind (hs.closeNotify _ _) fun _ => hs.free _) (leaves_pure _))
    fun _ => leaves_ite (hs.close _ _) (leaves_pure _)

end

end P4Linux.Hget
