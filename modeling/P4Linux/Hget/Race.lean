import Mathlib.Data.List.Perm.Basic
import Mathlib.Data.Set.Basic
import P4Linux.Hget.Connect

/-!
# What opening a connection leaves open

* `closesOf fd l` -- how often `l` closes the descriptor that `fd` names at its start;
* `Own l` -- `l` closes nothing but what it was handed itself;
* `Holds fds w₀ w held` -- since `w₀` the program has closed all it was handed, except `held`;
  one lemma for each step (`Holds.socket`, `Holds.close`, …), and from them one for each loop of
  `tcp_connect`;
* `tcpConnect_wp`, `connOpen_wp` -- the winner is all that is left of a race, and a connection that
  could not be opened leaves nothing.
-/

namespace P4Linux.Hget

open Proc

/-! ## 1. Logs -/

def Event.hands : Event → Option Int
  | .socket fd | .create _ fd => if fd < 0 then none else some fd
  | _ => none

/-- The descriptor `fd` was handed out in `l`. -/
def Handed (fd : Int) (l : List Event) : Prop := ∃ e ∈ l, e.hands = some fd

/-- How often `l` closes the descriptor that `fd` names at its start: a `close(fd)` after `fd` was
    handed out again closes another one. -/
def closesOf (fd : Int) : List Event → Nat
  | [] => 0
  | e :: l => if e.hands = some fd then 0 else (if e = .close fd then 1 else 0) + closesOf fd l

theorem closesOf_handed {fd : Int} {a : List Event} (h : Handed fd a) (b : List Event) :
    closesOf fd (a ++ b) = closesOf fd a := by
  induction a with
  | nil =>
    obtain ⟨e, he, -⟩ := h
    cases he
  | cons e a ih =>
    rw [List.cons_append, closesOf, closesOf]
    split
    · rfl
    · rename_i he
      obtain ⟨e', hmem, he'⟩ := h
      rcases List.mem_cons.mp hmem with rfl | hmem
      · exact absurd he' he
      · rw [ih ⟨e', hmem, he'⟩]

theorem closesOf_append {fd : Int} {a : List Event} (h : ¬ Handed fd a) (b : List Event) :
    closesOf fd (a ++ b) = closesOf fd a + closesOf fd b := by
  induction a with
  | nil => rw [List.nil_append, closesOf, Nat.zero_add]
  | cons e a ih =>
    have he : ¬ e.hands = some fd := fun he => h ⟨e, List.mem_cons_self, he⟩
    have ha : ¬ Handed fd a := fun ⟨e', hm, he'⟩ => h ⟨e', List.mem_cons_of_mem _ hm, he'⟩
    rw [List.cons_append, closesOf, closesOf, if_neg he, if_neg he, ih ha, Nat.add_assoc]

theorem Handed.append {fd : Int} {a : List Event} (h : Handed fd a) (b : List Event) :
    Handed fd (a ++ b) := by
  obtain ⟨e, he, h⟩ := h
  exact ⟨e, List.mem_append_left b he, h⟩

def Own (l : List Event) : Prop := ∀ fd, closesOf fd l = 0

theorem own_nil : Own [] := fun _ => rfl

theorem Own.append {a b : List Event} (ha : Own a) (hb : ∀ fd, Handed fd a ∨ closesOf fd b = 0) :
    Own (a ++ b) := by
  intro fd
  by_cases h : Handed fd a
  · rw [closesOf_handed h, ha fd]
  · rw [closesOf_append h, ha fd, (hb fd).resolve_left h]

/-- `socket` and `close`, and no `close` of what was there before. -/
structure Quiet (l : List Event) : Prop where
  own : Own l
  only : ∀ e ∈ l, ∃ fd, e = .socket fd ∨ e = .close fd

theorem quiet_nil : Quiet [] := ⟨own_nil, fun _ h => by cases h⟩

theorem Quiet.append_socket {l : List Event} (h : Quiet l) (fd : Int) : Quiet (l ++ [.socket fd]) where
  own := h.own.append fun g => .inr (by unfold closesOf; split <;> rfl)
  only e he := by
    rcases List.mem_append.mp he with he | he
    · exact h.only e he
    · exact ⟨fd, .inl (List.mem_singleton.mp he)⟩

theorem Quiet.append_close {l : List Event} {fd : Int} (h : Quiet l) (hfd : Handed fd l) :
    Quiet (l ++ [.close fd]) where
  own := h.own.append fun g => by
    by_cases hg : g = fd
    · exact .inl (hg ▸ hfd)
    · refine .inr ?_
      have hne : ¬ Event.close fd = Event.close g := fun e => hg (Event.close.inj e).symm
      rw [closesOf, if_neg (by rintro ⟨⟩), if_neg hne]
      rfl
  only e he := by
    rcases List.mem_append.mp he with he | he
    · exact h.only e he
    · exact ⟨fd, .inr (List.mem_singleton.mp he)⟩

/-! ## 2. What a program holds -/

section

variable {σ : Type} {fds : σ → Set Int} {w₀ w w' : World σ} {held held' : List Int}

/-- Since `w₀` the descriptors `held` were handed out and not closed, all others were closed. -/
structure Holds (fds : σ → Set Int) (w₀ w : World σ) (held : List Int) : Prop where
  log : ∃ l, w.log = w₀.log ++ l ∧ Quiet l ∧ ∀ fd ∈ held, Handed fd l
  opens : fds w.kernel = fds w₀.kernel ∪ {fd | fd ∈ held}
  nodup : held.Nodup
  fresh : ∀ fd ∈ held, 0 ≤ fd ∧ fd ∉ fds w₀.kernel

theorem holds_self (w : World σ) : Holds fds w w [] where
  log := ⟨[], (List.append_nil _).symm, quiet_nil, fun _ h => by cases h⟩
  opens := by simp
  nodup := List.nodup_nil
  fresh _ h := by cases h

theorem Holds.seen (h : Holds fds w₀ w held) (hs : seen fds w' = seen fds w) : Holds fds w₀ w' held where
  log := by rw [show w'.log = w.log from congrArg Prod.fst hs]; exact h.log
  opens := by rw [show fds w'.kernel = fds w.kernel from congrArg Prod.snd hs]; exact h.opens
  nodup := h.nodup
  fresh := h.fresh

theorem Holds.nonneg (h : Holds fds w₀ w held) : ∀ fd ∈ held, 0 ≤ fd := fun fd hfd => (h.fresh fd hfd).1

theorem Holds.perm (h : Holds fds w₀ w held) (hp : held.Perm held') : Holds fds w₀ w held' where
  log := by
    obtain ⟨l, hl, hq, hh⟩ := h.log
    exact ⟨l, hl, hq, fun fd hfd => hh fd (hp.mem_iff.mpr hfd)⟩
  opens := by
    rw [h.opens]
    ext fd
    exact or_congr Iff.rfl hp.mem_iff
  nodup := hp.nodup_iff.mp h.nodup
  fresh fd hfd := h.fresh fd (hp.mem_iff.mpr hfd)

theorem Holds.socket (h : Holds fds w₀ w held) {fd : Int} {s : σ}
    (hs : HandsOut fd (fds w.kernel) (fds s)) :
    Holds fds w₀ ⟨s, w.log ++ [.socket fd]⟩ (if fd < 0 then held else fd :: held) := by
  obtain ⟨l, hl, hq, hh⟩ := h.log
  unfold HandsOut at hs
  by_cases hneg : fd < 0
  · rw [if_pos hneg] at hs ⊢
    exact ⟨⟨l ++ [.socket fd], by rw [hl, List.append_assoc], hq.append_socket fd,
      fun g hg => (hh g hg).append _⟩, hs.trans h.opens, h.nodup, h.fresh⟩
  · rw [if_neg hneg] at hs ⊢
    obtain ⟨hnew, hs⟩ := hs
    rw [h.opens] at hnew hs
    have hself : Handed fd (l ++ [.socket fd]) :=
      ⟨.socket fd, List.mem_append_right _ List.mem_cons_self, if_neg hneg⟩
    refine ⟨⟨l ++ [.socket fd], by rw [hl, List.append_assoc], hq.append_socket fd, ?_⟩, ?_, ?_, ?_⟩
    · intro g hg
      rcases List.mem_cons.mp hg with rfl | hg
      · exact hself
      · exact (hh g hg).append _
    · rw [hs]
      ext g
      simp only [Set.mem_insert_iff, Set.mem_union, Set.mem_ofPred_eq, List.mem_cons]
      tauto
    · exact List.nodup_cons.mpr ⟨fun hm => hnew (.inr hm), h.nodup⟩
    · intro g hg
      rcases List.mem_cons.mp hg with rfl | hg
      · exact ⟨Int.not_lt.mp hneg, fun hm => hnew (.inl hm)⟩
      · exact h.fresh g hg

theorem Holds.close {fd : Int} {s : σ} (h : Holds fds w₀ w (fd :: held))
    (hs : fds s = fds w.kernel \ {fd}) : Holds fds w₀ ⟨s, w.log ++ [.close fd]⟩ held := by
  obtain ⟨l, hl, hq, hh⟩ := h.log
  obtain ⟨hnot, hnodup⟩ := List.nodup_cons.mp h.nodup
  refine ⟨⟨l ++ [.close fd], by rw [hl, List.append_assoc],
    hq.append_close (hh fd List.mem_cons_self),
    fun g hg => (hh g (List.mem_cons_of_mem _ hg)).append _⟩, ?_, hnodup,
    fun g hg => h.fresh g (List.mem_cons_of_mem _ hg)⟩
  show fds s = _
  rw [hs, h.opens]
  ext g
  have hold : g = fd → g ∉ fds w₀.kernel := fun e => e ▸ (h.fresh fd List.mem_cons_self).2
  have hheld : g = fd → g ∉ held := fun e => e ▸ hnot
  simp only [Set.mem_sdiff, Set.mem_union, Set.mem_ofPred_eq, List.mem_cons, Set.mem_singleton_iff]
  tauto

end

/-! ## 3. The steps -/

section

variable {σ α : Type} {sys : Sys σ} {fds : σ → Set Int} {w₀ w : World σ} {held : List Int}
  {c : World σ → Prop}

/-- Whatever is held when the program is cut off. -/
def Loose (fds : σ → Set Int) (w₀ w : World σ) : Prop := ∃ held, Holds fds w₀ w held

theorem Holds.loose (h : Holds fds w₀ w held) : Loose fds w₀ w := ⟨held, h⟩

/-- A step that leaves log and descriptors alone, and what follows it. -/
theorem Holds.bind_leaves {β : Type} {x : Proc (World σ) α} {f : α → Proc (World σ) β}
    {q : β → World σ → Prop} (h : Holds fds w₀ w held) (hx : Leaves (Hget.seen fds) x)
    (hf : ∀ a w', Holds fds w₀ w' held → wp (f a) q (Loose fds w₀) w') :
    wp (x >>= f) q (Loose fds w₀) w :=
  wp_bind_leaves rfl hx (fun a w' hs => hf a w' (h.seen hs)) fun _ hs => (h.seen hs).loose

variable (hk : Descriptors sys.kernel fds)
include hk

theorem Holds.bind_close {β : Type} {fd : Int} {f : Unit → Proc (World σ) β} {q : β → World σ → Prop}
    (h : Holds fds w₀ w (fd :: held))
    (hf : ∀ w', Holds fds w₀ w' held → wp (f ()) q (Loose fds w₀) w') :
    wp (sys.close fd >>= f) q (Loose fds w₀) w :=
  wp_bind.mpr (hf _ (h.close (hk.close fd w.kernel)))

theorem Holds.bind_socket {β : Type} {ai : AddrInfo} {f : Int → Proc (World σ) β}
    {q : β → World σ → Prop} (h : Holds fds w₀ w held)
    (hf : ∀ fd w', Holds fds w₀ w' (if fd < 0 then held else fd :: held) →
      wp (f fd) q (Loose fds w₀) w') :
    wp (sys.socket ai >>= f) q (Loose fds w₀) w :=
  wp_bind.mpr (hf _ _ (h.socket (hk.socket ai w.kernel)))

/-- What the racers and a winner that was taken out of the race hold. -/
def heldBy (won : Option Int) (pfd : List Racer) : List Int :=
  won.toList ++ (pfd.map (·.fd)).filter (0 ≤ ·)

omit hk in
theorem heldBy_none {pfd : List Racer} (h : ∀ fd ∈ pfd.map (·.fd), 0 ≤ fd) :
    heldBy none pfd = pfd.map (·.fd) :=
  List.filter_eq_self.mpr fun fd hfd => decide_eq_true (h fd hfd)

/-- Induction on the candidates: a socket joins the race, wins it at once or is closed. -/
theorem startRace_wp (sel : List AddrInfo) (pfd : List Racer) (h : Holds fds w₀ w (pfd.map (·.fd))) :
    wp (startRace sys sel pfd) (fun x w' => Holds fds w₀ w' (heldBy x.2 x.1) ∧
      (x.2 = none → Holds fds w₀ w' (x.1.map (·.fd)))) (Loose fds w₀) w := by
  induction sel generalizing pfd w with
  | nil => exact ⟨by rw [heldBy_none h.nonneg]; exact h, fun _ => h⟩
  | cons ai sel ih =>
    unfold startRace
    split
    · refine h.bind_socket hk fun fd w' h' => ?_
      by_cases hneg : fd < 0
      · rw [if_pos hneg] at h' ⊢
        exact ih pfd h'
      · rw [if_neg hneg] at h' ⊢
        refine h'.bind_leaves (leaves_call (hk.getfl fd)) fun flags w' h' => ?_
        refine h'.bind_leaves (leaves_call (hk.setfl fd _)) fun _ w' h' => ?_
        refine h'.bind_leaves (leaves_call (hk.connect fd ai)) fun r w' h' => ?_
        have hlose : wp (sys.close fd >>= fun _ => startRace sys sel pfd) (fun x w' =>
            Holds fds w₀ w' (heldBy x.2 x.1) ∧ (x.2 = none → Holds fds w₀ w' (x.1.map (·.fd))))
            (Loose fds w₀) w' := h'.bind_close hk fun w' h' => ih pfd h'
        rcases r with (_ | _ | _ | _) | _
        · exact hlose
        · exact hlose
        · -- pending: it goes to the end of `pfd`
          refine ih _ (h'.perm ?_)
          rw [List.map_append]
          exact (List.perm_append_singleton fd _).symm
        · exact hlose
        · refine h'.bind_leaves (leaves_call (hk.setfl fd flags)) fun _ w' h' => ?_
          refine ⟨?_, fun hn => by cases hn⟩
          rw [heldBy, List.filter_eq_self.mpr]
          · exact h'
          · exact fun g hg => decide_eq_true (h'.nonneg g (List.mem_cons_of_mem _ hg))
    · exact ⟨by rw [heldBy_none h.nonneg]; exact h, fun _ => h⟩

omit hk in
theorem set_perm {l : List Racer} {i : Nat} {r : Racer} (last : Racer) (h : l[i]? = some r) :
    (r :: l.set i last).Perm (last :: l) := by
  induction l generalizing i with
  | nil => cases h
  | cons a l ih =>
    cases i with
    | zero =>
      obtain rfl : a = r := Option.some.inj h
      exact List.Perm.swap _ _ _
    | succ i =>
      rw [List.set_cons_succ]
      exact (List.Perm.swap _ _ _).trans (((ih h).cons a).trans (List.Perm.swap _ _ _))

omit hk in
theorem exists_getLast {pfd : List Racer} {i : Nat} {r : Racer} (h : pfd[i]? = some r) :
    ∃ last, pfd.getLast? = some last := by
  rw [← Option.isSome_iff_exists, List.getLast?_isSome]
  rintro rfl
  cases h

omit hk in
/-- `pfd[i] = pfd[nfd - 1]; nfd--` takes entry `i` out. -/
theorem remove_perm {pfd : List Racer} {i : Nat} {r last : Racer} (hi : pfd[i]? = some r)
    (hlast : pfd.getLast? = some last) : pfd.Perm (r :: (pfd.set i last).dropLast) := by
  obtain ⟨pre, rfl⟩ := List.getLast?_eq_some_iff.mp hlast
  by_cases hlt : i < pre.length
  · rw [List.getElem?_append_left hlt] at hi
    rw [List.set_append_left _ _ hlt, List.dropLast_concat]
    exact (List.perm_append_singleton _ _).trans (set_perm last hi).symm
  · have hilen : i < (pre ++ [last]).length := (List.getElem?_eq_some_iff.mp hi).1
    rw [List.length_append, List.length_singleton] at hilen
    obtain rfl : i = pre.length := by omega
    rw [List.getElem?_concat_length] at hi
    obtain rfl : last = r := Option.some.inj hi
    rw [List.set_append_right _ _ (Nat.le_refl _), Nat.sub_self, List.set_cons_zero,
      List.dropLast_concat]
    exact List.perm_append_singleton _ _

omit hk in
/-- The winner's entry is marked with -1, which is no descriptor. -/
theorem marked_perm {pfd : List Racer} {i : Nat} {r : Racer} (h : ∀ fd ∈ pfd.map (·.fd), 0 ≤ fd)
    (hi : pfd[i]? = some r) :
    (pfd.map (·.fd)).Perm (heldBy (some r.fd) (pfd.set i { r with fd := -1 })) := by
  have hr : 0 ≤ r.fd := h r.fd (List.mem_map_of_mem (List.mem_of_getElem? hi))
  have hp := ((set_perm { r with fd := -1 } hi).map (·.fd)).filter (0 ≤ ·)
  rw [List.map_cons, List.map_cons, List.filter_cons_of_pos (by simpa using hr),
    List.filter_cons_of_neg (by simp), ← List.nil_append (List.filter _ (pfd.map _))] at hp
  rw [← heldBy_none h]
  exact hp.symm

/-- Induction on the entries to go: one is skipped, wins (and is marked), or is closed and gone. -/
theorem scan_wp (todo i : Nat) (pfd : List Racer) (h : Holds fds w₀ w (pfd.map (·.fd))) :
    wp (scan sys todo i pfd) (fun x w' => Holds fds w₀ w' (heldBy x.2 x.1) ∧
      (x.2 = none → Holds fds w₀ w' (x.1.map (·.fd)))) (Loose fds w₀) w := by
  induction todo generalizing i pfd w with
  | zero => exact ⟨by rw [heldBy_none h.nonneg]; exact h, fun _ => h⟩
  | succ todo ih =>
    unfold scan
    cases hi : pfd[i]? with
    | none => exact ⟨by rw [heldBy_none h.nonneg]; exact h, fun _ => h⟩
    | some r =>
      dsimp only
      split
      · exact ih (i + 1) pfd h
      · refine h.bind_leaves (leaves_call (hk.getsockopt r.fd)) fun x w' h' => ?_
        split
        · refine h'.bind_leaves (leaves_call (hk.setfl r.fd r.flags)) fun _ w' h' => ?_
          exact ⟨h'.perm (marked_perm h'.nonneg hi), fun hn => by cases hn⟩
        · obtain ⟨last, hlast⟩ := exists_getLast hi
          have hp := (remove_perm hi hlast).map (·.fd)
          rw [List.map_cons] at hp
          refine (h'.perm hp).bind_close hk fun w' h' => ?_
          rw [hlast]
          exact ih i _ h'

omit hk in
theorem map_withRevents (pfd : List Racer) (revents : Nat → BitVec 16) :
    (withRevents pfd revents).map (·.fd) = pfd.map (·.fd) := by
  refine List.ext_getElem? fun i => ?_
  rw [List.getElem?_map, List.getElem?_map, withRevents, List.getElem?_mapIdx, Option.map_map]
  rfl

/-- Induction on the rounds of `poll`. -/
theorem race_wp (n : Nat) (deadline : Int) (pfd : List Racer)
    (h : Holds fds w₀ w (pfd.map (·.fd))) :
    wp (race sys n deadline pfd) (fun x w' => Holds fds w₀ w' (heldBy x.2 x.1)) (Loose fds w₀) w := by
  induction n generalizing deadline pfd w with
  | zero => exact h.loose
  | succ n ih =>
    unfold race
    split
    · refine h.bind_leaves (leaves_call (hk.poll _ _)) fun r w' h' => ?_
      have hnone : Holds fds w₀ w' (heldBy none pfd) := by
        rw [heldBy_none h'.nonneg]
        exact h'
      rcases r with (_ | _ | _ | _) | ⟨rc, revents⟩
      · exact ih _ pfd h'
      · exact hnone
      · exact hnone
      · exact hnone
      · rw [← map_withRevents pfd revents] at h'
        dsimp only
        split
        · exact ih _ _ h'
        · refine wp_bind.mpr (wp_mono (scan_wp hk _ 0 _ h') ?_ fun _ hc => hc)
          rintro ⟨pfd', won⟩ w' ⟨hheld, hall⟩
          cases won with
          | none => exact ih _ _ (hall rfl)
          | some winner => exact hheld
    · rw [wp_pure, heldBy_none h.nonneg]
      exact h

/-- Induction on the entries: each open one is closed, unless it is the winner. -/
theorem closeLosers_wp (winner : Option Int) (pfd : List Racer)
    (h : Holds fds w₀ w (heldBy winner pfd)) :
    wp (closeLosers sys winner pfd) (fun _ w' => Holds fds w₀ w' winner.toList) (Loose fds w₀) w := by
  induction pfd generalizing w with
  | nil =>
    rw [heldBy, List.map_nil, List.filter_nil, List.append_nil] at h
    exact h
  | cons r pfd ih =>
    unfold closeLosers
    by_cases hfd : 0 ≤ r.fd
    · have hp : (heldBy winner (r :: pfd)).Perm (r.fd :: heldBy winner pfd) := by
        unfold heldBy
        rw [List.map_cons, List.filter_cons_of_pos (by simpa using hfd)]
        exact List.perm_middle
      have h' := h.perm hp
      have hne : some r.fd ≠ winner := by
        rintro rfl
        exact (List.nodup_cons.mp h'.nodup).1 (List.mem_append_left _ List.mem_cons_self)
      rw [if_pos ⟨hfd, hne⟩]
      exact h'.bind_close hk fun w' h' => ih h'
    · have he : heldBy winner (r :: pfd) = heldBy winner pfd := by
        unfold heldBy
        rw [List.map_cons, List.filter_cons_of_neg (by simpa using hfd)]
      rw [he] at h
      rw [if_neg fun hc => hfd hc.1]
      exact ih h

theorem runRace_wp (n : Nat) (sel : List AddrInfo) (h : Holds fds w₀ w []) :
    wp (runRace sys n sel) (fun x w' => Holds fds w₀ w' (heldBy x.2 x.1)) (Loose fds w₀) w := by
  refine wp_bind.mpr (wp_mono (startRace_wp hk sel [] h) ?_ fun _ hc => hc)
  rintro ⟨pfd, won⟩ w ⟨hheld, hall⟩
  cases won with
  | some fd => exact hheld
  | none => exact race_wp hk n _ pfd (hall rfl)

/-! ## 4. Connections -/

theorem leaves_setTimeouts (fd : Int) : Leaves (Hget.seen fds) (setTimeouts sys fd) :=
  leaves_bind (leaves_call (hk.setsockopt fd _ _)) fun _ =>
    leaves_bind (leaves_call (hk.setsockopt fd _ _)) fun _ => leaves_pure _

/-- **The race**: the winner is all that is left of it. -/
theorem tcpConnect_wp (n : Nat) (host port : List UInt8) (w₀ : World σ) :
    wp (tcpConnect sys n host port) (fun r w' => Holds fds w₀ w' r.toOption.toList) (Loose fds w₀) w₀ := by
  unfold tcpConnect
  have h : Holds fds w₀ w₀ [] := holds_self w₀
  refine Holds.bind_leaves h ?_ ?_
  · exact leaves_call (hk.getaddrinfo host port)
  · intro r w h
    cases r with
    | error e => exact h
    | ok res =>
      dsimp only
      generalize candidates res = sel
      refine wp_bind.mpr (wp_mono (runRace_wp hk n sel h) ?_ fun _ hc => hc)
      rintro ⟨pfd, winner⟩ w h
      refine wp_bind.mpr (wp_mono (closeLosers_wp hk winner pfd h) ?_ fun _ hc => hc)
      intro _ w h
      cases winner with
      | none => exact h
      | some fd => exact h.bind_leaves (leaves_setTimeouts hk fd) fun _ w h => h

theorem leaves_handshake (ht : sys.tls.Contained fds) (fd : Int) (n : Nat) :
    Leaves (Hget.seen fds) (handshake sys fd n) := by
  induction n with
  | zero => exact leaves_stuck
  | succ n ih =>
    refine leaves_bind (ht.handshake _ (bio_contained hk fd)) fun rc => ?_
    exact leaves_ite (leaves_pure _) (leaves_ite ih (leaves_pure _))

omit hk in
theorem leaves_tlsVerify (ht : sys.tls.Contained fds) : Leaves (Hget.seen fds) (tlsVerify sys) := by
  refine leaves_ite (leaves_bind (ht.confAuthmode false) fun _ => leaves_pure _) ?_
  refine leaves_bind (ht.parseFile _) fun rc => leaves_ite (leaves_pure _) ?_
  exact leaves_bind ht.confCaChain fun _ => leaves_bind (ht.confAuthmode true) fun _ => leaves_pure _

theorem leaves_tlsOpen (ht : sys.tls.Contained fds) (n : Nat) (fd : Int) (host : List UInt8) :
    Leaves (Hget.seen fds) (tlsOpen sys n fd host) := by
  refine leaves_bind ht.init fun _ => leaves_bind ht.seed fun rc => leaves_ite (leaves_pure _) ?_
  refine leaves_bind ht.configDefaults fun rc => leaves_ite (leaves_pure _) ?_
  refine leaves_bind (leaves_tlsVerify ht) fun verified => leaves_ite (leaves_pure _) ?_
  refine leaves_bind ht.confRng fun _ => leaves_bind ht.setup fun rc => leaves_ite (leaves_pure _) ?_
  refine leaves_bind (ht.setHostname host) fun rc => leaves_ite (leaves_pure _) ?_
  refine leaves_bind (leaves_handshake hk ht fd n) fun ok => leaves_ite (leaves_pure _) ?_
  exact leaves_bind ht.verifyResult fun flags => leaves_pure _

/-- The world right after `conn_open` returned `EX_OK` with the descriptor `fd`. -/
def Connected (fds : σ → Set Int) (w₀ w : World σ) (fd : Int) : Prop :=
  ∃ w₁, Holds fds w₀ w₁ [fd] ∧ w = { w₁ with log := w₁.log ++ [.connected fd] }

/-- **`conn_open`** leaves one descriptor open, the connection's, or none. -/
theorem connOpen_wp (ht : sys.tls.Contained fds) (n : Nat) (host port : List UInt8) (tls : Bool)
    (w₀ : World σ) :
    wp (connOpen sys n host port tls) (fun r w => match r with
      | .ok c => Connected fds w₀ w c.fd
      | .error _ => Holds fds w₀ w []) (Loose fds w₀) w₀ := by
  refine wp_bind.mpr (wp_mono (tcpConnect_wp hk n host port w₀) ?_ fun _ hc => hc)
  intro r w h
  cases r with
  | error rc => exact h
  | ok fd =>
    have h : Holds fds w₀ w [fd] := h
    dsimp only
    split
    · exact ⟨w, h, rfl⟩
    · split
      · exact h.bind_close hk fun w h => h
      · refine h.bind_leaves (leaves_tlsOpen hk ht n fd host) fun ok w h => ?_
        cases ok with
        | true => exact ⟨w, h, rfl⟩
        | false => exact h.bind_close hk fun w h => h

end

end P4Linux.Hget
