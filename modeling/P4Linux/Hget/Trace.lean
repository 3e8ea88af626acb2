import P4Linux.Lib.Handles
import P4Linux.Hget.Connect

/-!
# The calls of a race

`Kernel.traced k clock` is the kernel `k` that also writes down what `tcp_connect` asked of it and what came
of it; `clock` is the time in milliseconds.

* `openFds`, `undecided` -- what `socket` returned and nobody closed, and what is connecting and was not asked for
  its `SO_ERROR`;
* `saved`, `restored`, `status` -- the flags of a descriptor: what `F_GETFL` returned, what the last `F_SETFL` was
  given, and what they are;
* `closes`, `closes_eq` -- how often a descriptor is closed.
-/

namespace P4Linux.Hget

open Handles

/-! ## 1. The calls -/

inductive Call where
  | socket (fd : Int)
  | getfl (fd : Int) (flags : BitVec 32)
  /-- with its result, negative if it failed -/
  | setfl (fd : Int) (flags : BitVec 32) (rc : Int)
  | connect (fd : Int) (r : Except Errno Unit)
  /-- with its result and the time it took -/
  | poll (fds : List Int) (slice : Int) (r : Except Errno Int) (elapsed : Int)
  | getsockopt (fd : Int)
  | close (fd : Int)

section

variable {σ α : Type}

/-- `f`, and the call written down. -/
def record (f : σ → α × σ) (c : σ → α → σ → Call) (s : σ × List Call) : α × (σ × List Call) :=
  ((f s.1).1, (f s.1).2, s.2 ++ [c s.1 (f s.1).1 (f s.1).2])

/-- `f`, which is not written down. -/
def quiet (f : σ → α × σ) (s : σ × List Call) : α × (σ × List Call) := ((f s.1).1, (f s.1).2, s.2)

def Kernel.traced (k : Kernel σ) (clock : σ → Int) : Kernel (σ × List Call) where
  getaddrinfo host port := quiet (k.getaddrinfo host port)
  socket ai := record (k.socket ai) fun _ fd _ => .socket fd
  getfl fd := record (k.getfl fd) fun _ flags _ => .getfl fd flags
  setfl fd flags := record (k.setfl fd flags) fun _ rc _ => .setfl fd flags rc
  connect fd ai := record (k.connect fd ai) fun _ r _ => .connect fd r
  poll pfd slice := record (k.poll pfd slice) fun s r s' =>
    .poll pfd slice (r.map Prod.fst) (clock s' - clock s)
  getsockopt fd := record (k.getsockopt fd) fun _ _ _ => .getsockopt fd
  setsockopt fd opt v := quiet (k.setsockopt fd opt v)
  recv fd len := quiet (k.recv fd len)
  send fd buf := quiet (k.send fd buf)
  write fd buf := quiet (k.write fd buf)
  create path := quiet (k.create path)
  close fd := record (k.close fd) fun _ _ _ => .close fd

/-- What was called, up to now. -/
def World.trace (w : World (σ × List Call)) : List Call := w.kernel.2

/-- Nothing is said of a run that is cut off. -/
def Free (_ : World (σ × List Call)) : Prop := True

end

/-! ## 2. What is open and what is undecided -/

def Call.op : Call → Option (Op Int)
  | .socket fd => if fd < 0 then none else some (.take fd)
  | .close fd => some (.drop fd)
  | _ => none

def openFds (l : List Call) : List Int := held (l.filterMap Call.op)

/-- `connect` said `EINPROGRESS`, and nobody has asked for the verdict. -/
def undecided (l : List Call) : List Int :=
  l.foldl (fun u c => match c with
    | .connect fd (.error .einprogress) => fd :: u
    | .getsockopt fd => u.erase fd
    | _ => u) []

/-- How often `fd` is closed before `socket` returns it again. -/
def closes (fd : Int) : List Call → Nat
  | [] => 0
  | .socket g :: l => if g = fd then 0 else closes fd l
  | .close g :: l => (if g = fd then 1 else 0) + closes fd l
  | _ :: l => closes fd l

variable {l : List Call} {fd : Int}

theorem ops_snoc (c : Call) : (l ++ [c]).filterMap Call.op = l.filterMap Call.op ++ c.op.toList := by
  rw [List.filterMap_append]
  cases h : c.op <;> simp [h]

theorem openFds_snoc {c : Call} (h : c.op = none) : openFds (l ++ [c]) = openFds l := by
  rw [openFds, ops_snoc, h]
  exact congrArg held (List.append_nil _)

theorem openFds_socket (h : 0 ≤ fd) : openFds (l ++ [.socket fd]) = fd :: openFds l := by
  rw [openFds, ops_snoc, Call.op, if_neg (Int.not_lt.mpr h)]
  exact held_snoc

theorem openFds_close : openFds (l ++ [.close fd]) = (openFds l).erase fd := by
  rw [openFds, ops_snoc]
  exact held_snoc

/-- Induction on the trace, from its end. -/
theorem openFds_nonneg (h : fd ∈ openFds l) : 0 ≤ fd := by
  induction l using List.reverseRecOn with
  | nil => cases h
  | append_singleton l c ih =>
    by_cases hc : c.op = none
    · rw [openFds_snoc hc] at h
      exact ih h
    · cases c with
      | socket g =>
        have hg : 0 ≤ g := Int.not_lt.mp fun hg => hc (if_pos hg)
        rw [openFds_socket hg] at h
        rcases List.mem_cons.mp h with rfl | h
        · exact hg
        · exact ih h
      | close g =>
        rw [openFds_close] at h
        exact ih (List.mem_of_mem_erase h)
      | _ => exact absurd rfl hc

theorem undecided_snoc (c : Call) : undecided (l ++ [c]) = match c with
    | .connect fd (.error .einprogress) => fd :: undecided l
    | .getsockopt fd => (undecided l).erase fd
    | _ => undecided l := by
  rw [undecided, List.foldl_append]
  rfl

/-- A connect that is pending is undecided from then on. -/
theorem undecided_connect {pending : List Int} (h : (undecided l).Perm pending) (r : Except Errno Unit) :
    (undecided (l ++ [.connect fd r])).Perm (if r = .error .einprogress then fd :: pending else pending) := by
  refine undecided_snoc (.connect fd r) ▸ ?_
  rcases r with (_ | _ | _ | _) | _
  · exact h
  · exact h
  · exact h.cons fd
  · exact h
  · exact h

theorem taken_iff (h : 0 ≤ fd) : .take fd ∈ l.filterMap Call.op ↔ .socket fd ∈ l := by
  rw [List.mem_filterMap]
  constructor
  · rintro ⟨c, hc, hop⟩
    cases c with
    | socket g =>
      dsimp only [Call.op] at hop
      split at hop
      · cases hop
      · obtain rfl := Op.take.inj (Option.some.inj hop)
        exact hc
    | close g => cases hop
    | _ => cases hop
  · exact fun hm => ⟨_, hm, if_neg (Int.not_lt.mpr h)⟩

theorem closes_eq (h : 0 ≤ fd) : closes fd l = drops fd (l.filterMap Call.op) := by
  induction l with
  | nil => rfl
  | cons c l ih =>
    cases c with
    | socket g =>
      unfold closes
      by_cases hg : g < 0
      · have hop : (Call.socket g).op = none := if_pos hg
        rw [List.filterMap_cons_none hop, ih, if_neg (by omega)]
      · have hop : (Call.socket g).op = some (.take g) := if_neg hg
        rw [List.filterMap_cons_some hop, drops, ih]
    | close g =>
      have hop : (Call.close g).op = some (.drop g) := rfl
      rw [closes, List.filterMap_cons_some hop, drops, ih]
    | _ => exact ih

/-! ## 3. Flags -/

/-- What `F_GETFL` returned for `fd` since `socket` returned it. -/
def saved (l : List Call) (fd : Int) : Option (BitVec 32) :=
  l.foldl (fun v c => match c with
    | .socket g => if g = fd then none else v
    | .getfl g flags => if g = fd then some flags else v
    | _ => v) none

/-- What the last `F_SETFL` on `fd` was given, and its result. -/
def restored (l : List Call) (fd : Int) : Option (BitVec 32 × Int) :=
  l.foldl (fun v c => match c with
    | .socket g => if g = fd then none else v
    | .setfl g flags rc => if g = fd then some (flags, rc) else v
    | _ => v) none

/-- The flags of `fd`, as far as they were set: an `F_SETFL` that fails leaves them as they are. -/
def status (l : List Call) (fd : Int) : Option (BitVec 32) :=
  l.foldl (fun v c => match c with
    | .socket g => if g = fd then none else v
    | .setfl g flags rc => if g = fd ∧ 0 ≤ rc then some flags else v
    | _ => v) none

theorem saved_snoc (c : Call) : saved (l ++ [c]) fd = match c with
    | .socket g => if g = fd then none else saved l fd
    | .getfl g flags => if g = fd then some flags else saved l fd
    | _ => saved l fd := by
  rw [saved, List.foldl_append]
  rfl

theorem restored_snoc (c : Call) : restored (l ++ [c]) fd = match c with
    | .socket g => if g = fd then none else restored l fd
    | .setfl g flags rc => if g = fd then some (flags, rc) else restored l fd
    | _ => restored l fd := by
  rw [restored, List.foldl_append]
  rfl

theorem status_snoc (c : Call) : status (l ++ [c]) fd = match c with
    | .socket g => if g = fd then none else status l fd
    | .setfl g flags rc => if g = fd ∧ 0 ≤ rc then some flags else status l fd
    | _ => status l fd := by
  rw [status, List.foldl_append]
  rfl

/-- Induction on the trace, from its end. -/
theorem status_of_restored {v : BitVec 32} {rc : Int} (h : restored l fd = some (v, rc)) (hrc : 0 ≤ rc) :
    status l fd = some v := by
  induction l using List.reverseRecOn with
  | nil => cases h
  | append_singleton l c ih =>
    rw [restored_snoc] at h
    rw [status_snoc]
    cases c with
    | socket g =>
      dsimp only at h ⊢
      split at h
      · cases h
      · rw [if_neg ‹_›]
        exact ih h
    | setfl g flags rc' =>
      dsimp only at h ⊢
      split at h
      · obtain ⟨rfl, rfl⟩ := Prod.mk.inj (Option.some.inj h)
        rw [if_pos ⟨‹_›, hrc⟩]
      · rw [if_neg fun hc => absurd hc.1 ‹_›]
        exact ih h
    | _ => exact ih h

/-! ## 4. A network that follows a script -/

/-- Each `poll` returns the next of `rounds` and takes the time that stands beside it. -/
structure Net where
  opens : List Int
  addrs : List AddrInfo
  rounds : List (Except Errno (Int × List (BitVec 16)) × Int)
  /-- what `F_SETFL` returns when `O_NONBLOCK` is taken away -/
  restores : Int
  /-- the descriptors whose connect fails -/
  dead : List Int
  now : Int

def Net.next (s : Net) : Int := s.opens.foldl max 0 + 1

def Net.kernel : Kernel Net where
  getaddrinfo _ _ s := (.ok s.addrs, s)
  socket _ s := (s.next, { s with opens := s.next :: s.opens })
  getfl _ s := (2, s)
  setfl _ flags s := (if flags &&& oNonblock = 0 then s.restores else 0, s)
  connect _ ai s := (if ai.addr = [] then .error .einprogress else .ok (), s)
  poll _ _ s := match s.rounds with
    | [] => (.error .other, s)
    | (r, t) :: rounds =>
      (r.map fun x => (x.1, fun i => x.2.getD i 0), { s with rounds := rounds, now := s.now + t })
  getsockopt fd s := ((0, if fd ∈ s.dead then 111 else 0), s)
  setsockopt _ _ _ s := (0, s)
  recv _ _ s := (.ok [], s)
  send _ buf s := (.ok buf.length, s)
  write _ buf s := (.ok buf.length, s)
  create _ s := (s.next, { s with opens := s.next :: s.opens })
  close fd s := (0, { s with opens := s.opens.filter (· ≠ fd) })

def Net.fds (s : Net) : Set Int := {fd | fd ∈ s.opens}

theorem Net.descriptors : Descriptors Net.kernel Net.fds where
  socket ai s := handsOut_above s.opens
  create path s := handsOut_above s.opens
  close fd s := by
    ext g
    show g ∈ s.opens.filter (· ≠ fd) ↔ g ∈ s.opens ∧ g ≠ fd
    rw [List.mem_filter, decide_eq_true_iff]
  getaddrinfo _ _ _ := rfl
  getfl _ _ := rfl
  setfl _ _ _ := rfl
  connect _ _ _ := rfl
  poll _ _ s := by
    unfold Net.kernel Net.fds
    dsimp only
    split <;> rfl
  getsockopt _ _ := rfl
  setsockopt _ _ _ _ := rfl
  recv _ _ _ := rfl
  send _ _ _ := rfl
  write _ _ _ := rfl

/-- A library that is never called. -/
def noTls (ω : Type) : Tls ω where
  init := Proc.stuck
  seed := Proc.stuck
  configDefaults := Proc.stuck
  confAuthmode _ := Proc.stuck
  parseFile _ := Proc.stuck
  confCaChain := Proc.stuck
  confRng := Proc.stuck
  setup := Proc.stuck
  setHostname _ := Proc.stuck
  handshake _ := Proc.stuck
  verifyResult := Proc.stuck
  write _ _ := Proc.stuck
  read _ _ := Proc.stuck
  closeNotify _ := Proc.stuck
  free := Proc.stuck

/-- `tcp_connect` under `-T timeout`. -/
def Net.connect (timeout : Int) : Proc (World (Net × List Call)) (Except Exit Int) :=
  tcpConnect ⟨Net.kernel.traced Net.now, noTls _, ⟨false, true, timeout, [], false⟩⟩ 40 [] []

end P4Linux.Hget
