import Mathlib.Algebra.Order.BigOperators.Group.List
import Mathlib.Algebra.Order.Ring.Int
import P4Linux.Hget.Race
import P4Linux.Hget.Trace

/-!
# How long a race waits

* `charged`, `spent` -- what the calls of `poll` were charged with, and how long they took;
* `race_clocked`, `tcpConnect_charged` -- **a race that is given up was charged with its whole deadline**;
* `waits_whole` -- the deadline is the timeout, and the charge is time, where the product does not wrap and no
  `poll` returns early.
-/

namespace P4Linux.Hget

open Proc

/-! ## 1. Rounds -/

/-- The slice and the time that `poll` took. -/
def Call.round : Call → Option (Int × Int)
  | .poll _ slice _ elapsed => some (slice, elapsed)
  | _ => none

/-- Why `poll` failed. -/
def Call.failure : Call → Option Errno
  | .poll _ _ (.error e) _ => some e
  | _ => none

variable {l : List Call} {c : Call}

def rounds (l : List Call) : List (Int × Int) := l.filterMap Call.round
def charged (l : List Call) : Int := ((rounds l).map Prod.fst).sum
def spent (l : List Call) : Int := ((rounds l).map Prod.snd).sum

/-- `poll` failed for signals only. -/
def OnlySignals (l : List Call) : Prop := ∀ e ∈ l.filterMap Call.failure, e = .eintr

instance (l : List Call) : Decidable (OnlySignals l) :=
  inferInstanceAs (Decidable (∀ e ∈ l.filterMap Call.failure, e = .eintr))

theorem charged_snoc (h : c.round = none) : charged (l ++ [c]) = charged l := by
  rw [charged, rounds, List.filterMap_append, List.filterMap_cons_none h, List.filterMap_nil, List.append_nil]
  rfl

theorem charged_poll {fds : List Int} {slice elapsed : Int} {r : Except Errno Int} :
    charged (l ++ [.poll fds slice r elapsed]) = charged l + slice := by
  rw [charged, rounds, List.filterMap_append, List.map_append, List.sum_append]
  exact congrArg (charged l + ·) (Int.add_zero slice)

theorem not_onlySignals {fds : List Int} {slice elapsed : Int} {e : Errno} (he : e ≠ .eintr) :
    ¬ OnlySignals (l ++ [.poll fds slice (.error e) elapsed]) := by
  intro h
  refine he (h e ?_)
  rw [List.filterMap_append]
  exact List.mem_append_right _ List.mem_cons_self

theorem OnlySignals.prefix (h : OnlySignals (l ++ [c])) : OnlySignals l := by
  intro e he
  refine h e ?_
  rw [List.filterMap_append]
  exact List.mem_append_left _ he

/-! ## 2. The loops -/

variable {σ : Type} {w : World (σ × List Call)}

/-- `pfd` is what is undecided, and `poll` was charged with `m` up to now. -/
structure Clocked (w : World (σ × List Call)) (pending : List Int) (m : Int) : Prop where
  pending : (undecided w.trace).Perm pending
  charged : charged w.trace = m

section

variable {k : Kernel σ} {clock : σ → Int} {tls : Tls (World (σ × List Call))} {opt : Options}
  {pending pending' : List Int} {m : Int} {β : Type} {q : β → World (σ × List Call) → Prop} {fd : Int}

theorem Clocked.perm (h : Clocked w pending m) (hp : pending.Perm pending') : Clocked w pending' m :=
  ⟨h.pending.trans hp, h.charged⟩

/-- A call that is not `poll`. -/
theorem Clocked.call (h : Clocked w pending m) {s' : σ} {log : List Event} (hc : c.round = none)
    (hp : (undecided (w.trace ++ [c])).Perm pending') : Clocked ⟨(s', w.trace ++ [c]), log⟩ pending' m :=
  ⟨hp, (charged_snoc hc).trans h.charged⟩

theorem Clocked.same (h : Clocked w pending m) {s' : σ} {log : List Event} (hc : c.round = none)
    (hu : undecided (w.trace ++ [c]) = undecided w.trace) : Clocked ⟨(s', w.trace ++ [c]), log⟩ pending m :=
  h.call hc (hu ▸ h.pending)

theorem Clocked.bind_close (h : Clocked w pending m) {f : Unit → Proc (World (σ × List Call)) β}
    (hf : ∀ w', Clocked w' pending m → w'.trace = w.trace ++ [.close fd] → wp (f ()) q Free w') :
    wp (Sys.close ⟨k.traced clock, tls, opt⟩ fd >>= f) q Free w :=
  wp_bind.mpr (hf _ (h.same rfl (undecided_snoc _)) rfl)

theorem Clocked.bind_socket (h : Clocked w pending m) {ai : AddrInfo}
    {f : Int → Proc (World (σ × List Call)) β} (hf : ∀ fd w', Clocked w' pending m → wp (f fd) q Free w') :
    wp (Sys.socket ⟨k.traced clock, tls, opt⟩ ai >>= f) q Free w :=
  wp_bind.mpr (hf _ _ (h.same rfl (undecided_snoc _)))

theorem Clocked.bind_getfl (h : Clocked w pending m) {f : BitVec 32 → Proc (World (σ × List Call)) β}
    (hf : ∀ flags w', Clocked w' pending m → wp (f flags) q Free w') :
    wp (Hget.call ((k.traced clock).getfl fd) >>= f) q Free w :=
  wp_bind.mpr (hf _ _ (h.same rfl (undecided_snoc _)))

theorem Clocked.bind_setfl (h : Clocked w pending m) {flags : BitVec 32}
    {f : Int → Proc (World (σ × List Call)) β} (hf : ∀ rc w', Clocked w' pending m → wp (f rc) q Free w') :
    wp (Hget.call ((k.traced clock).setfl fd flags) >>= f) q Free w :=
  wp_bind.mpr (hf _ _ (h.same rfl (undecided_snoc _)))

theorem Clocked.bind_connect (h : Clocked w pending m) {ai : AddrInfo}
    {f : Except Errno Unit → Proc (World (σ × List Call)) β}
    (hf : ∀ r w', Clocked w' (if r = .error .einprogress then fd :: pending else pending) m →
      wp (f r) q Free w') : wp (Hget.call ((k.traced clock).connect fd ai) >>= f) q Free w :=
  wp_bind.mpr (hf (k.connect fd ai w.kernel.1).1 _ (h.call rfl (undecided_connect h.pending _)))

theorem Clocked.bind_getsockopt (h : Clocked w pending m) {f : Int × Int → Proc (World (σ × List Call)) β}
    (hf : ∀ x w', Clocked w' (pending.erase fd) m → wp (f x) q Free w') :
    wp (Hget.call ((k.traced clock).getsockopt fd) >>= f) q Free w :=
  wp_bind.mpr (hf _ _ (h.call rfl (undecided_snoc (.getsockopt _) ▸ h.pending.erase fd)))

/-- `poll` is charged with its slice, however long it takes. -/
theorem Clocked.bind_poll (h : Clocked w pending m) {pfd : List Int} {slice : Int}
    {f : Except Errno (Int × (Nat → BitVec 16)) → Proc (World (σ × List Call)) β}
    (hf : ∀ r w', Clocked w' pending (m + slice) →
      (∀ e, r = .error e → e ≠ .eintr → ¬ OnlySignals w'.trace) → wp (f r) q Free w') :
    wp (Hget.call ((k.traced clock).poll pfd slice) >>= f) q Free w := by
  refine wp_bind.mpr (hf (k.poll pfd slice w.kernel.1).1 _ ⟨?_, ?_⟩ fun e hr he => ?_)
  · exact undecided_snoc (.poll _ _ _ _) ▸ h.pending
  · exact charged_poll.trans (congrArg (· + slice) h.charged)
  · show ¬ OnlySignals (w.trace ++ [.poll pfd slice ((k.poll pfd slice w.kernel.1).1.map Prod.fst) _])
    rw [hr]
    exact not_onlySignals he

/-- Induction on the candidates. -/
theorem startRace_clocked (sel : List AddrInfo) (pfd : List Racer) (h : Clocked w (pfd.map (·.fd)) m) :
    wp (startRace ⟨k.traced clock, tls, opt⟩ sel pfd) (fun x w' => x.2 = none →
      Clocked w' (x.1.map (·.fd)) m) Free w := by
  induction sel generalizing pfd w with
  | nil => exact fun _ => h
  | cons ai sel ih =>
    unfold startRace
    split
    · refine h.bind_socket fun fd w' h' => ?_
      split
      · exact ih pfd h'
      · refine h'.bind_getfl fun flags w' h' => h'.bind_setfl fun _ w' h' => ?_
        refine h'.bind_connect fun r w' h' => ?_
        rcases r with (_ | _ | _ | _) | _
        · exact h'.bind_close fun w' h' _ => ih pfd h'
        · exact h'.bind_close fun w' h' _ => ih pfd h'
        · refine ih _ (h'.perm ?_)
          rw [List.map_append]
          exact (List.perm_append_singleton fd _).symm
        · exact h'.bind_close fun w' h' _ => ih pfd h'
        · exact h'.bind_setfl fun _ w' h' => by rintro ⟨⟩
    · exact fun _ => h

/-- Induction on the entries to go. -/
theorem scan_clocked (todo i : Nat) (pfd : List Racer) (h : Clocked w (pfd.map (·.fd)) m) :
    wp (scan ⟨k.traced clock, tls, opt⟩ todo i pfd) (fun x w' => x.2 = none →
      Clocked w' (x.1.map (·.fd)) m) Free w := by
  induction todo generalizing i pfd w with
  | zero => exact fun _ => h
  | succ todo ih =>
    unfold scan
    cases hi : pfd[i]? with
    | none => exact fun _ => h
    | some r =>
      dsimp only
      split
      · exact ih (i + 1) pfd h
      · refine h.bind_getsockopt fun x w' h' => ?_
        split
        · exact h'.bind_setfl fun _ w' h' => by rintro ⟨⟩
        · obtain ⟨last, hlast⟩ := exists_getLast hi
          have hp := ((remove_perm hi hlast).map (·.fd)).erase r.fd
          rw [List.map_cons, List.erase_cons_head] at hp
          refine (h'.perm hp).bind_close fun w' h' _ => ?_
          rw [hlast]
          exact ih i _ h'

/-- **What a race that is given up was charged with.** Induction on the rounds: each is charged with its slice,
    and the slices add up to the deadline. -/
theorem race_clocked (n : Nat) (deadline : Int) (pfd : List Racer) (h : Clocked w (pfd.map (·.fd)) m) :
    wp (race ⟨k.traced clock, tls, opt⟩ n deadline pfd) (fun x w' => x.2 = none → OnlySignals w'.trace →
      ∃ m', Clocked w' (x.1.map (·.fd)) m' ∧ (x.1 ≠ [] → m' = m + max 0 deadline)) Free w := by
  induction n generalizing deadline pfd w m with
  | zero => trivial
  | succ n ih =>
    unfold race
    split
    · rename_i hgo
      -- the slices that are left are those of the rest of the deadline
      have hrest : ∀ slice, slice = (if 1000 < deadline then 1000 else deadline) →
          m + slice + max 0 (deadline - slice) = m + max 0 deadline := by
        rintro slice rfl
        split <;> omega
      have hround : ∀ {w' : World (σ × List Call)} {pfd' : List Racer} (slice : Int),
          slice = (if 1000 < deadline then 1000 else deadline) →
          Clocked w' (pfd'.map (·.fd)) (m + slice) →
          wp (race ⟨k.traced clock, tls, opt⟩ n (deadline - slice) pfd') (fun x w' => x.2 = none →
            OnlySignals w'.trace → ∃ m', Clocked w' (x.1.map (·.fd)) m' ∧
              (x.1 ≠ [] → m' = m + max 0 deadline)) Free w' := by
        intro w' pfd' slice hslice h'
        rw [← hrest slice hslice]
        exact ih _ pfd' h'
      refine h.bind_poll fun r w' h' hfail => ?_
      rcases r with (_ | _ | _ | _) | ⟨rc, revents⟩
      · exact hround _ rfl h'
      · exact fun _ hsig => absurd hsig (hfail _ rfl (by rintro ⟨⟩))
      · exact fun _ hsig => absurd hsig (hfail _ rfl (by rintro ⟨⟩))
      · exact fun _ hsig => absurd hsig (hfail _ rfl (by rintro ⟨⟩))
      · rw [← map_withRevents pfd revents] at h'
        dsimp only
        split
        · exact hround _ rfl h'
        · refine wp_bind.mpr (wp_mono (scan_clocked _ 0 _ h') ?_ fun _ hc => hc)
          rintro ⟨pfd', won⟩ w' hscan
          cases won with
          | none => exact hround _ rfl (hscan rfl)
          | some winner => rintro ⟨⟩
    · rename_i hstop
      refine fun _ _ => ⟨m, h, fun hne => ?_⟩
      have hle : deadline ≤ 0 := Int.not_lt.mp fun hlt => hstop ⟨hne, hlt⟩
      omega

/-- Induction on the entries. -/
theorem closeLosers_clocked (won : Option Int) (pfd : List Racer) (h : Clocked w pending m) :
    wp (closeLosers ⟨k.traced clock, tls, opt⟩ won pfd) (fun _ w' =>
      (OnlySignals w'.trace → OnlySignals w.trace) ∧ Clocked w' pending m) Free w := by
  induction pfd generalizing w with
  | nil => exact ⟨id, h⟩
  | cons r pfd ih =>
    unfold closeLosers
    split
    · refine h.bind_close fun w₁ h₁ htrace => wp_mono (ih h₁) ?_ fun _ hc => hc
      rintro _ w' ⟨hsig, h'⟩
      refine ⟨fun hs => ?_, h'⟩
      have hs := hsig hs
      rw [htrace] at hs
      exact hs.prefix
    · exact ih h

theorem runRace_clocked (n : Nat) (sel : List AddrInfo) (h : Clocked w [] 0) :
    wp (runRace ⟨k.traced clock, tls, opt⟩ n sel) (fun x w' => x.2 = none → OnlySignals w'.trace →
      ∃ m, Clocked w' (x.1.map (·.fd)) m ∧ (x.1 ≠ [] → m = max 0 (long (opt.timeout * 1000)))) Free w := by
  refine wp_bind.mpr (wp_mono (startRace_clocked sel [] h) ?_ fun _ hc => hc)
  rintro ⟨pfd, won⟩ w hstart
  cases won with
  | some fd => rintro ⟨⟩
  | none =>
    refine wp_mono (race_clocked n _ pfd (hstart rfl)) (fun x w' hrace hwon hsig => ?_) fun _ hc => hc
    obtain ⟨m, hm, he⟩ := hrace hwon hsig
    exact ⟨m, hm, fun hne => (he hne).trans (Int.zero_add _)⟩

end

/-! ## 3. Giving up -/

section

variable {k : Kernel σ} {clock : σ → Int} {tls : Tls (World (σ × List Call))} {opt : Options} {n : Nat}
  {host port : List UInt8} {s : σ} {log : List Event} {w' : World (σ × List Call)}

/-- **A race that is given up while a connect is pending was charged with its whole deadline.** -/
theorem tcpConnect_charged
    (h : Ends (tcpConnect ⟨k.traced clock, tls, opt⟩ n host port) ⟨(s, []), log⟩ (.error .connect) w')
    (hsig : OnlySignals w'.trace) (hpending : undecided w'.trace ≠ []) :
    charged w'.trace = max 0 (long (opt.timeout * 1000)) := by
  unfold tcpConnect at h
  obtain ⟨res, w₁, hres, h⟩ := ends_bind.mp h
  cases res with
  | error e => cases (ends_pure.mp h).1
  | ok res =>
    dsimp only at h
    generalize candidates res = sel at h
    obtain ⟨⟨pfd, won⟩, w₂, hrace, h⟩ := ends_bind.mp h
    obtain ⟨_, w₃, hclose, h⟩ := ends_bind.mp h
    cases won with
    | some fd =>
      obtain ⟨_, w₄, -, h⟩ := ends_bind.mp h
      cases (ends_pure.mp h).1
    | none =>
      obtain ⟨-, rfl⟩ := ends_pure.mp h
      have hstart : Clocked w₁ [] 0 := by
        rw [← (Prod.mk.inj hres).2]
        exact ⟨List.Perm.refl _, rfl⟩
      have hrace := hrace.of_wp (runRace_clocked n sel hstart) rfl
      have hbefore := (hclose.of_wp (closeLosers_clocked none pfd (w := w₂) ⟨List.Perm.refl _, rfl⟩)).1 hsig
      obtain ⟨m, hm, he⟩ := hrace hbefore
      obtain ⟨-, h⟩ := hclose.of_wp (closeLosers_clocked none pfd hm)
      rw [h.charged]
      refine he ?_
      rintro rfl
      exact hpending h.pending.eq_nil

/-- Every `poll` takes as long as it was asked to. -/
def Whole (l : List Call) : Prop := ∀ x ∈ rounds l, x.1 ≤ x.2

instance (l : List Call) : Decidable (Whole l) := inferInstanceAs (Decidable (∀ x ∈ rounds l, x.1 ≤ x.2))

/-- And none takes longer. -/
def Prompt (l : List Call) : Prop := ∀ x ∈ rounds l, x.2 ≤ x.1

theorem charged_le_spent {l : List Call} (h : Whole l) : charged l ≤ spent l := List.sum_le_sum h

theorem spent_le_charged {l : List Call} (h : Prompt l) : spent l ≤ charged l := List.sum_le_sum h

theorem whole_of_le {l : List Call} (h : Prompt l) (hle : charged l ≤ spent l) : Whole l := by
  intro x hx
  by_contra hlt
  have hsum : spent l < charged l := List.sum_lt_sum _ _ h ⟨x, hx, Int.not_le.mp hlt⟩
  omega

theorem long_eq {x : Int} (h0 : 0 ≤ x) (h : x < 2 ^ 31) : long x = x := by
  unfold long
  rw [Int.bmod_eq_of_le] <;> omega

theorem long_lt (x : Int) : long x < 2 ^ 31 := by
  have h := Int.bmod_lt (x := x) (m := 2 ^ 32) (by decide)
  unfold long
  omega

/-- **tcp_connect does not give up early** where its timeout fits and every `poll` lasts, and -- in a run where
    none lasts longer than it was asked to -- nowhere else. -/
theorem waits_whole (hpos : 0 < opt.timeout)
    (h : Ends (tcpConnect ⟨k.traced clock, tls, opt⟩ n host port) ⟨(s, []), log⟩ (.error .connect) w')
    (hsig : OnlySignals w'.trace) (hpending : undecided w'.trace ≠ []) :
    (opt.timeout * 1000 < 2 ^ 31 → Whole w'.trace → opt.timeout * 1000 ≤ spent w'.trace) ∧
      (Prompt w'.trace → opt.timeout * 1000 ≤ spent w'.trace →
        opt.timeout * 1000 < 2 ^ 31 ∧ Whole w'.trace) := by
  have hcharged := tcpConnect_charged h hsig hpending
  have hlt := long_lt (opt.timeout * 1000)
  constructor
  · intro hfits hwhole
    have hle := charged_le_spent hwhole
    rw [hcharged, long_eq (by omega) hfits] at hle
    omega
  · intro hprompt hwaits
    have hle := spent_le_charged hprompt
    -- what was charged is the product taken to 32 bits, and that is no more than the product
    have hfits : opt.timeout * 1000 < 2 ^ 31 := by omega
    refine ⟨hfits, whole_of_le hprompt ?_⟩
    rw [hcharged, long_eq (by omega) hfits]
    omega

end

/-- One connect that stays pending, and a `poll` that waits its second out. -/
def silent : Net := ⟨[0, 1, 2], [⟨2, 1, 6, []⟩], [(.ok (0, []), 1000)], 0, [], 0⟩

theorem waits_whole_silent : ∃ w', Ends (Net.connect 1) ⟨(silent, []), []⟩ (.error .connect) w' ∧
    undecided w'.trace = [3] ∧ 1 * 1000 ≤ spent w'.trace := by
  have h : Ends (Net.connect 1) ⟨(silent, []), []⟩ (.error .connect)
      (Net.connect 1 ⟨(silent, []), []⟩).2 := ends_of_fst (by rfl)
  have hsig : OnlySignals (Net.connect 1 ⟨(silent, []), []⟩).2.trace := by decide +kernel
  have hpending : undecided (Net.connect 1 ⟨(silent, []), []⟩).2.trace = [3] := by decide +kernel
  refine ⟨_, h, hpending, ?_⟩
  exact (waits_whole (by decide) h hsig (by rw [hpending]; decide)).1 (by decide) (by decide +kernel)

/-- Of two connects one fails after 3 ms: the other one is given up, after 3 ms of a second. And under
    `-T 2147484` there is no `poll` at all. -/
theorem not_waits : (∃ w', Ends (Net.connect 1)
      ⟨(⟨[0, 1, 2], [⟨2, 1, 6, []⟩, ⟨2, 1, 6, []⟩], [(.ok (1, [0, 8]), 3)], 0, [4], 0⟩, []), []⟩
      (.error .connect) w' ∧ OnlySignals w'.trace ∧ undecided w'.trace = [3] ∧ spent w'.trace = 3) ∧
    ∃ w', Ends (Net.connect 2147484) ⟨(silent, []), []⟩ (.error .connect) w' ∧ OnlySignals w'.trace ∧
      undecided w'.trace = [3] ∧ spent w'.trace = 0 :=
  ⟨⟨_, ends_of_fst rfl, by decide +kernel, by decide +kernel, by decide +kernel⟩,
    _, ends_of_fst rfl, by decide +kernel, by decide +kernel, by decide +kernel⟩

end P4Linux.Hget
