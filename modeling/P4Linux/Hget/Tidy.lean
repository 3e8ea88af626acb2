import P4Linux.Hget.Race
import P4Linux.Hget.Trace

/-!
# A race leaks nothing and closes nothing twice

* `Polled` -- `poll` is given what is open and undecided, once each;
* `Book` -- what holds of the trace at every moment; one lemma for each call;
* `Racing`, `Closing` -- a race in progress, and one that is over, `scan_racing`, `race_racing`, …;
* `tcpConnect_tidy` -- **what a race leaves behind**: each descriptor is closed once, but the winner.
-/

namespace P4Linux.Hget

open Proc Handles

/-! ## 1. The books -/

/-- A `poll` after `pre` is given each descriptor that is open and undecided, once, and no other. -/
def Polled (pre : List Call) (c : Call) : Prop :=
  ∀ fds slice r elapsed, c = .poll fds slice r elapsed →
    fds.Nodup ∧ ∀ fd, fd ∈ fds ↔ fd ∈ openFds pre ∧ fd ∈ undecided pre

theorem polled_of_ne {l : List Call} {c : Call} (h : ∀ fds slice r elapsed, c ≠ .poll fds slice r elapsed) :
    Polled l c := fun fds slice r elapsed e => absurd e (h fds slice r elapsed)

variable {σ : Type} {fds : σ → Set Int} {w w' : World (σ × List Call)}

/-- **At every moment**: `socket` returned nothing that was open, nothing was closed that was not, and what is
    open is open for the kernel. -/
structure Book (fds : σ → Set Int) (s : σ) (l : List Call) : Prop where
  fresh : Fresh (l.filterMap Call.op)
  owned : Owned (l.filterMap Call.op)
  opens : ∀ fd ∈ openFds l, fd ∈ fds s
  polled : Always Polled l

section

variable {s s' : σ} {l : List Call} {fd : Int}

/-- Before the first call nothing of the race is open, whatever the process had open already. -/
theorem book_nil : Book fds s [] where
  fresh := always_nil
  owned := always_nil
  opens _ h := by cases h
  polled := always_nil

/-- `socket` returned nothing that was open, so nothing is open twice. -/
theorem Book.nodup (h : Book fds s l) : (openFds l).Nodup := h.fresh.nodup

/-- A call that leaves the descriptors alone. -/
theorem Book.leaves (h : Book fds s l) {c : Call} (hop : c.op = none) (hs : fds s' = fds s)
    (hp : Polled l c) : Book fds s' (l ++ [c]) where
  fresh := by rw [ops_snoc, hop]; exact (List.append_nil _).symm ▸ h.fresh
  owned := by rw [ops_snoc, hop]; exact (List.append_nil _).symm ▸ h.owned
  opens fd hfd := by
    rw [openFds_snoc hop] at hfd
    rw [hs]
    exact h.opens fd hfd
  polled := always_snoc.mpr ⟨h.polled, hp⟩

/-- And one that is not written down. -/
theorem Book.quiet (h : Book fds s l) (hs : fds s' = fds s) : Book fds s' l where
  fresh := h.fresh
  owned := h.owned
  opens fd hfd := by rw [hs]; exact h.opens fd hfd
  polled := h.polled

/-- A socket is new for the race because it is new for the kernel. -/
theorem Book.socket (h : Book fds s l) (hfd : 0 ≤ fd) (hs : HandsOut fd (fds s) (fds s')) :
    Book fds s' (l ++ [.socket fd]) ∧ fd ∉ openFds l := by
  rw [HandsOut, if_neg (Int.not_lt.mpr hfd)] at hs
  obtain ⟨hnew, hs⟩ := hs
  have hnot : fd ∉ openFds l := fun hm => hnew (h.opens fd hm)
  have hop : (Call.socket fd).op.toList = [.take fd] := by rw [Call.op, if_neg (Int.not_lt.mpr hfd)]; rfl
  refine ⟨⟨?_, ?_, ?_, always_snoc.mpr ⟨h.polled, polled_of_ne (by rintro _ _ _ _ ⟨⟩)⟩⟩, hnot⟩
  · rw [ops_snoc, hop]
    exact fresh_snoc.mpr ⟨h.fresh, fun g e => Op.take.inj e ▸ hnot⟩
  · rw [ops_snoc, hop]
    exact owned_snoc.mpr ⟨h.owned, by rintro _ ⟨⟩⟩
  · intro g hg
    rw [openFds_socket hfd] at hg
    rw [hs]
    exact (List.mem_cons.mp hg).imp id (h.opens g)

/-- A close has to be of something that the race has open. -/
theorem Book.close (h : Book fds s l) (hfd : fd ∈ openFds l) (hs : fds s' = fds s \ {fd}) :
    Book fds s' (l ++ [.close fd]) where
  fresh := by rw [ops_snoc]; exact fresh_snoc.mpr ⟨h.fresh, by rintro _ ⟨⟩⟩
  owned := by rw [ops_snoc]; exact owned_snoc.mpr ⟨h.owned, fun g e => Op.drop.inj e ▸ hfd⟩
  opens g hg := by
    rw [openFds_close, h.nodup.mem_erase_iff] at hg
    rw [hs]
    exact ⟨h.opens g hg.2, hg.1⟩
  polled := always_snoc.mpr ⟨h.polled, polled_of_ne (by rintro _ _ _ _ ⟨⟩)⟩

end

/-! ## 2. A race in progress -/

/-- `mine` is open, `racing` is undecided, and `pfd` has the flags that were saved. -/
structure Racing (fds : σ → Set Int) (w : World (σ × List Call)) (mine racing : List Int)
    (pfd : List Racer) : Prop where
  book : Book fds w.kernel.1 w.trace
  mine : (openFds w.trace).Perm mine
  racing : (undecided w.trace).Perm racing
  flags : ∀ r ∈ pfd, saved w.trace r.fd = some r.flags

/-- What is left of a race: `won` has its flags back. -/
structure Closing (fds : σ → Set Int) (w : World (σ × List Call)) (won : Option Int) (pfd : List Racer) :
    Prop where
  book : Book fds w.kernel.1 w.trace
  mine : (openFds w.trace).Perm (heldBy won pfd)
  flags : ∀ fd, won = some fd → ∃ v rc, saved w.trace fd = some v ∧ restored w.trace fd = some (v, rc)

section

variable {mine racing mine' racing' : List Int} {pfd pfd' : List Racer}

theorem Racing.nodup (h : Racing fds w mine racing pfd) : mine.Nodup := h.mine.nodup_iff.mp h.book.nodup

/-- What is open is no error code. -/
theorem Racing.nonneg (h : Racing fds w mine racing pfd) : ∀ fd ∈ mine, 0 ≤ fd := fun _ hfd =>
  openFds_nonneg (h.mine.mem_iff.mpr hfd)

/-- The order of `pfd` does not matter, nor the flags that `poll` writes into it. -/
theorem Racing.perm (h : Racing fds w mine racing pfd) (hm : mine.Perm mine') (hr : racing.Perm racing')
    (hp : ∀ r ∈ pfd', ∃ r' ∈ pfd, r'.fd = r.fd ∧ r'.flags = r.flags) : Racing fds w mine' racing' pfd' where
  book := h.book
  mine := h.mine.trans hm
  racing := h.racing.trans hr
  flags r hr := by
    obtain ⟨r', hr', hfd, hflags⟩ := hp r hr
    rw [← hfd, ← hflags]
    exact h.flags r' hr'

/-- A race that nobody has won. -/
theorem Racing.closing (h : Racing fds w (pfd.map (·.fd)) racing pfd) : Closing fds w none pfd where
  book := h.book
  mine := by rw [heldBy_none h.nonneg]; exact h.mine
  flags _ e := by cases e

end

section

variable {k : Kernel σ} {clock : σ → Int} {tls : Tls (World (σ × List Call))} {opt : Options}
  {mine racing : List Int} {pfd : List Racer} {β : Type} {q : β → World (σ × List Call) → Prop} {fd : Int}

/-- A call that leaves the descriptors alone. -/
theorem Racing.call (h : Racing fds w mine racing pfd) {c : Call} {s' : σ} {log : List Event}
    {racing' : List Int}
    (hop : c.op = none) (hs : fds s' = fds w.kernel.1) (hp : Polled w.trace c)
    (hr : (undecided (w.trace ++ [c])).Perm racing')
    (hflags : ∀ r ∈ pfd, saved (w.trace ++ [c]) r.fd = saved w.trace r.fd) :
    Racing fds ⟨(s', w.trace ++ [c]), log⟩ mine racing' pfd where
  book := h.book.leaves hop hs hp
  mine := (openFds_snoc hop).symm ▸ h.mine
  racing := hr
  flags r hr := (hflags r hr).trans (h.flags r hr)

/-- A socket is open from here on. The saved flags of the entries are not those of its descriptor: they are
    open, and this one was not. -/
theorem Racing.socket (h : Racing fds w mine racing pfd) (hpfd : ∀ r ∈ pfd, r.fd ∈ mine) {s' : σ}
    {log : List Event} (hs : HandsOut fd (fds w.kernel.1) (fds s')) :
    Racing fds ⟨(s', w.trace ++ [.socket fd]), log⟩ (if fd < 0 then mine else fd :: mine) racing pfd := by
  have hund : undecided (w.trace ++ [.socket fd]) = undecided w.trace := undecided_snoc _
  have hsaved : ∀ r ∈ pfd, r.fd ≠ fd → saved (w.trace ++ [.socket fd]) r.fd = saved w.trace r.fd :=
    fun r _ hne => (saved_snoc _).trans (if_neg hne.symm)
  by_cases hneg : fd < 0
  · have hop : (Call.socket fd).op = none := if_pos hneg
    rw [if_pos hneg]
    rw [HandsOut, if_pos hneg] at hs
    refine h.call hop hs (polled_of_ne (by rintro _ _ _ _ ⟨⟩)) (hund ▸ h.racing) fun r hr => ?_
    have hnonneg := h.nonneg _ (hpfd r hr)
    exact hsaved r hr (by omega)
  · rw [if_neg hneg]
    obtain ⟨hbook, hnot⟩ := h.book.socket (Int.not_lt.mp hneg) hs
    refine ⟨hbook, ?_, hund.symm ▸ h.racing, fun r hr => ?_⟩
    · exact (openFds_socket (Int.not_lt.mp hneg)).symm ▸ h.mine.cons fd
    · have hne : r.fd ≠ fd := fun e => hnot (h.mine.mem_iff.mpr (e ▸ hpfd r hr))
      exact (hsaved r hr hne).trans (h.flags r hr)

-- One rule for each call, for a weakest precondition: what holds after the call is what its continuation
-- may assume.

theorem Racing.bind_socket (hk : Descriptors k fds) (h : Racing fds w mine racing pfd)
    (hpfd : ∀ r ∈ pfd, r.fd ∈ mine) {ai : AddrInfo} {f : Int → Proc (World (σ × List Call)) β}
    (hf : ∀ fd w', Racing fds w' (if fd < 0 then mine else fd :: mine) racing pfd → wp (f fd) q Free w') :
    wp (Sys.socket ⟨k.traced clock, tls, opt⟩ ai >>= f) q Free w :=
  wp_bind.mpr (hf _ _ (h.socket hpfd (hk.socket ai w.kernel.1)))

/-- `F_GETFL` is what the flags of a descriptor that is no entry yet are saved from. -/
theorem Racing.bind_getfl (hk : Descriptors k fds) (h : Racing fds w mine racing pfd)
    (hfd : ∀ r ∈ pfd, r.fd ≠ fd) {f : BitVec 32 → Proc (World (σ × List Call)) β}
    (hf : ∀ flags w', Racing fds w' mine racing pfd → saved w'.trace fd = some flags →
      wp (f flags) q Free w') : wp (Hget.call ((k.traced clock).getfl fd) >>= f) q Free w := by
  refine wp_bind.mpr (hf (k.getfl fd w.kernel.1).1 _ (h.call rfl (hk.getfl fd _) ?_ ?_ fun r hr => ?_) ?_)
  · exact polled_of_ne (by rintro _ _ _ _ ⟨⟩)
  · exact undecided_snoc (.getfl _ _) ▸ h.racing
  · exact (saved_snoc _).trans (if_neg (hfd r hr).symm)
  · exact (saved_snoc (.getfl _ _)).trans (if_pos rfl)

/-- `F_SETFL` saves nothing, and is the last one on its descriptor. -/
theorem Racing.bind_setfl (hk : Descriptors k fds) (h : Racing fds w mine racing pfd) {flags : BitVec 32}
    {f : Int → Proc (World (σ × List Call)) β}
    (hf : ∀ rc w', Racing fds w' mine racing pfd → (∀ g, saved w'.trace g = saved w.trace g) →
      restored w'.trace fd = some (flags, rc) → wp (f rc) q Free w') :
    wp (Hget.call ((k.traced clock).setfl fd flags) >>= f) q Free w := by
  refine wp_bind.mpr (hf (k.setfl fd flags w.kernel.1).1 _
    (h.call rfl (hk.setfl fd flags _) ?_ ?_ fun r hr => saved_snoc _) (fun g => saved_snoc _) ?_)
  · exact polled_of_ne (by rintro _ _ _ _ ⟨⟩)
  · exact undecided_snoc (.setfl _ _ _) ▸ h.racing
  · exact (restored_snoc (.setfl _ _ _)).trans (if_pos rfl)

/-- Only a connect that is in progress is undecided. -/
theorem Racing.bind_connect (hk : Descriptors k fds) (h : Racing fds w mine racing pfd) {ai : AddrInfo}
    {f : Except Errno Unit → Proc (World (σ × List Call)) β}
    (hf : ∀ r w', Racing fds w' mine (if r = .error .einprogress then fd :: racing else racing) pfd →
      (∀ g, saved w'.trace g = saved w.trace g) → wp (f r) q Free w') :
    wp (Hget.call ((k.traced clock).connect fd ai) >>= f) q Free w := by
  refine wp_bind.mpr (hf (k.connect fd ai w.kernel.1).1 _
    (h.call rfl (hk.connect fd ai _) ?_ ?_ fun r hr => saved_snoc _) fun g => saved_snoc _)
  · exact polled_of_ne (by rintro _ _ _ _ ⟨⟩)
  · exact undecided_connect h.racing _

/-- `poll` is given what it should, where what is open and what is undecided are the same. -/
theorem Racing.bind_poll (hk : Descriptors k fds) (h : Racing fds w mine mine pfd) {slice : Int}
    {f : Except Errno (Int × (Nat → BitVec 16)) → Proc (World (σ × List Call)) β}
    (hf : ∀ r w', Racing fds w' mine mine pfd → wp (f r) q Free w') :
    wp (Hget.call ((k.traced clock).poll mine slice) >>= f) q Free w := by
  refine wp_bind.mpr (hf (k.poll mine slice w.kernel.1).1 _
    (h.call rfl (hk.poll mine slice _) ?_ ?_ fun r hr => saved_snoc _))
  · rintro _ _ _ _ ⟨⟩
    refine ⟨h.nodup, fun fd => ?_⟩
    have hm : fd ∈ openFds w.trace ↔ fd ∈ mine := h.mine.mem_iff
    have hr : fd ∈ undecided w.trace ↔ fd ∈ mine := h.racing.mem_iff
    exact ⟨fun hfd => ⟨hm.mpr hfd, hr.mpr hfd⟩, fun hfd => hm.mp hfd.1⟩
  · exact undecided_snoc (.poll _ _ _ _) ▸ h.racing

/-- `SO_ERROR` decides a descriptor. -/
theorem Racing.bind_getsockopt (hk : Descriptors k fds) (h : Racing fds w mine racing pfd)
    {f : Int × Int → Proc (World (σ × List Call)) β}
    (hf : ∀ x w', Racing fds w' mine (racing.erase fd) pfd → wp (f x) q Free w') :
    wp (Hget.call ((k.traced clock).getsockopt fd) >>= f) q Free w := by
  refine wp_bind.mpr (hf (k.getsockopt fd w.kernel.1).1 _
    (h.call rfl (hk.getsockopt fd _) ?_ ?_ fun r hr => saved_snoc _))
  · exact polled_of_ne (by rintro _ _ _ _ ⟨⟩)
  · exact undecided_snoc (.getsockopt _) ▸ h.racing.erase fd

/-- The head of what is open is closed, the rest is left as it is. -/
theorem Racing.bind_close (hk : Descriptors k fds) (h : Racing fds w (fd :: mine) racing pfd)
    {f : Unit → Proc (World (σ × List Call)) β}
    (hf : ∀ w', Racing fds w' mine racing pfd → wp (f ()) q Free w') :
    wp (Sys.close ⟨k.traced clock, tls, opt⟩ fd >>= f) q Free w := by
  refine wp_bind.mpr (hf _ ⟨?_, ?_, undecided_snoc (.close _) ▸ h.racing, fun r hr => ?_⟩)
  · exact h.book.close (h.mine.mem_iff.mpr List.mem_cons_self) (hk.close fd _)
  · have hp := h.mine.erase fd
    rw [List.erase_cons_head] at hp
    exact openFds_close.symm ▸ hp
  · exact (saved_snoc _).trans (h.flags r hr)

/-- The same after the race; the winner is not what is closed, and keeps its flags. -/
theorem Closing.bind_close (hk : Descriptors k fds) {won : Option Int} (h : Closing fds w won pfd)
    {pfd' : List Racer} (hp : (heldBy won pfd).Perm (fd :: heldBy won pfd'))
    {f : Unit → Proc (World (σ × List Call)) β}
    (hf : ∀ w', Closing fds w' won pfd' → wp (f ()) q Free w') :
    wp (Sys.close ⟨k.traced clock, tls, opt⟩ fd >>= f) q Free w := by
  have hmine := h.mine.trans hp
  refine wp_bind.mpr (hf _ ⟨?_, ?_, fun g hg => ?_⟩)
  · exact h.book.close (hmine.mem_iff.mpr List.mem_cons_self) (hk.close fd _)
  · have hp := hmine.erase fd
    rw [List.erase_cons_head] at hp
    exact openFds_close.symm ▸ hp
  · obtain ⟨v, rc, hs, hr⟩ := h.flags g hg
    exact ⟨v, rc, (saved_snoc _).trans hs, (restored_snoc _).trans hr⟩

theorem Racing.bind_quiet {α : Type} (h : Racing fds w mine racing pfd) {x : σ → α × σ}
    (hx : ∀ s, fds (x s).2 = fds s) {f : α → Proc (World (σ × List Call)) β}
    (hf : ∀ a w', Racing fds w' mine racing pfd → wp (f a) q Free w') :
    wp (Hget.call (quiet x) >>= f) q Free w :=
  wp_bind.mpr (hf _ _ ⟨h.book.quiet (hx _), h.mine, h.racing, h.flags⟩)

theorem Closing.bind_quiet {α : Type} {won : Option Int} (h : Closing fds w won pfd) {x : σ → α × σ}
    (hx : ∀ s, fds (x s).2 = fds s) {f : α → Proc (World (σ × List Call)) β}
    (hf : ∀ a w', Closing fds w' won pfd → wp (f a) q Free w') :
    wp (Hget.call (quiet x) >>= f) q Free w :=
  wp_bind.mpr (hf _ _ ⟨h.book.quiet (hx _), h.mine, h.flags⟩)

/-! ## 3. The loops -/

/-- `poll` writes `revents`, and leaves descriptors and flags as they are. -/
theorem mem_withRevents {pfd : List Racer} {revents : Nat → BitVec 16} {r : Racer}
    (h : r ∈ withRevents pfd revents) : ∃ r' ∈ pfd, r'.fd = r.fd ∧ r'.flags = r.flags := by
  obtain ⟨i, hi, rfl⟩ := List.mem_mapIdx.mp h
  exact ⟨pfd[i], List.getElem_mem hi, rfl, rfl⟩

variable (hk : Descriptors k fds)
include hk

/-- Induction on the candidates: a socket joins the race, wins it at once or is closed. -/
theorem startRace_racing (sel : List AddrInfo) (pfd : List Racer)
    (h : Racing fds w (pfd.map (·.fd)) (pfd.map (·.fd)) pfd) :
    wp (startRace ⟨k.traced clock, tls, opt⟩ sel pfd) (fun x w' => Closing fds w' x.2 x.1 ∧
      (x.2 = none → Racing fds w' (x.1.map (·.fd)) (x.1.map (·.fd)) x.1)) Free w := by
  induction sel generalizing pfd w with
  | nil => exact ⟨h.closing, fun _ => h⟩
  | cons ai sel ih =>
    unfold startRace
    split
    · refine h.bind_socket hk (fun r hr => List.mem_map_of_mem hr) fun fd w' h' => ?_
      by_cases hneg : fd < 0
      -- no socket: the next candidate
      · rw [if_pos hneg] at h' ⊢
        exact ih pfd h'
      · rw [if_neg hneg] at h' ⊢
        have hfd : ∀ r ∈ pfd, r.fd ≠ fd := fun r hr e =>
          (List.nodup_cons.mp h'.nodup).1 (e ▸ List.mem_map_of_mem hr)
        refine h'.bind_getfl hk hfd fun flags w' h' hsaved => ?_
        refine h'.bind_setfl hk fun _ w' h' hsame _ => ?_
        rw [← hsame] at hsaved
        refine h'.bind_connect hk fun r w' h' hsame => ?_
        rw [← hsame] at hsaved
        -- a connect that failed: the socket is closed, and the next candidate's turn
        have hlose : Racing fds w' (fd :: pfd.map (·.fd)) (pfd.map (·.fd)) pfd →
            wp (Sys.close ⟨k.traced clock, tls, opt⟩ fd >>= fun _ =>
              startRace ⟨k.traced clock, tls, opt⟩ sel pfd) (fun x w' => Closing fds w' x.2 x.1 ∧
                (x.2 = none → Racing fds w' (x.1.map (·.fd)) (x.1.map (·.fd)) x.1)) Free w' :=
          fun h' => h'.bind_close hk fun w' h' => ih pfd h'
        rcases r with (_ | _ | _ | _) | _
        · exact hlose h'
        · exact hlose h'
        · -- pending: it goes to the end of `pfd`
          have hp : ∀ l : List Int, (fd :: l).Perm (l ++ [fd]) := fun l => (List.perm_append_singleton fd l).symm
          refine ih _ ⟨h'.book, ?_, ?_, fun r hr => ?_⟩
          · rw [List.map_append]
            exact h'.mine.trans (hp _)
          · rw [List.map_append]
            exact h'.racing.trans (hp _)
          · rcases List.mem_append.mp hr with hr | hr
            · exact h'.flags r hr
            · obtain rfl := List.mem_singleton.mp hr
              exact hsaved
        · exact hlose h'
        · -- connected at once: the race is over before the first `poll`
          refine h'.bind_setfl hk fun rc w' h' hsame hrest => ⟨⟨h'.book, ?_, ?_⟩, by rintro ⟨⟩⟩
          · rw [heldBy, List.filter_eq_self.mpr]
            · exact h'.mine
            · exact fun g hg => decide_eq_true (h'.nonneg g (List.mem_cons_of_mem _ hg))
          · rintro _ ⟨⟩
            exact ⟨flags, rc, (hsame fd).trans hsaved, hrest⟩
    · exact ⟨h.closing, fun _ => h⟩

/-- Induction on the entries to go: one is skipped, wins (and is marked), or is closed and gone. -/
theorem scan_racing (todo i : Nat) (pfd : List Racer)
    (h : Racing fds w (pfd.map (·.fd)) (pfd.map (·.fd)) pfd) :
    wp (scan ⟨k.traced clock, tls, opt⟩ todo i pfd) (fun x w' => Closing fds w' x.2 x.1 ∧
      (x.2 = none → Racing fds w' (x.1.map (·.fd)) (x.1.map (·.fd)) x.1)) Free w := by
  induction todo generalizing i pfd w with
  | zero => exact ⟨h.closing, fun _ => h⟩
  | succ todo ih =>
    unfold scan
    cases hi : pfd[i]? with
    | none => exact ⟨h.closing, fun _ => h⟩
    | some r =>
      dsimp only
      split
      · exact ih (i + 1) pfd h
      · refine h.bind_getsockopt hk fun x w' h' => ?_
        split
        -- connected: its entry is marked with -1, so that the losers are the entries that are not
        · have hsaved := h'.flags r (List.mem_of_getElem? hi)
          refine h'.bind_setfl hk fun rc w' h' hsame hrest => ⟨⟨h'.book, ?_, ?_⟩, by rintro ⟨⟩⟩
          · exact h'.mine.trans (marked_perm h'.nonneg hi)
          · rintro _ ⟨⟩
            exact ⟨r.flags, rc, (hsame r.fd).trans hsaved, hrest⟩
        -- failed: the last entry takes its place, and is looked at next
        · obtain ⟨last, hlast⟩ := exists_getLast hi
          have hp := remove_perm hi hlast
          have hmap := hp.map (·.fd)
          rw [List.map_cons] at hmap
          have hrest := hmap.erase r.fd
          rw [List.erase_cons_head] at hrest
          have hgone : Racing fds w' (r.fd :: (pfd.set i last).dropLast.map (·.fd))
              ((pfd.set i last).dropLast.map (·.fd)) (pfd.set i last).dropLast :=
            h'.perm hmap hrest fun r' hr' => ⟨r', hp.mem_iff.mpr (List.mem_cons_of_mem _ hr'), rfl, rfl⟩
          refine hgone.bind_close hk fun w' h' => ?_
          rw [hlast]
          exact ih i _ h'

/-- Induction on the rounds of `poll`. -/
theorem race_racing (n : Nat) (deadline : Int) (pfd : List Racer)
    (h : Racing fds w (pfd.map (·.fd)) (pfd.map (·.fd)) pfd) :
    wp (race ⟨k.traced clock, tls, opt⟩ n deadline pfd) (fun x w' => Closing fds w' x.2 x.1) Free w := by
  induction n generalizing deadline pfd w with
  | zero => trivial
  | succ n ih =>
    unfold race
    split
    · refine h.bind_poll hk fun r w' h' => ?_
      -- EINTR goes round again, every other error ends the race
      rcases r with (_ | _ | _ | _) | ⟨rc, revents⟩
      · exact ih _ pfd h'
      · exact h'.closing
      · exact h'.closing
      · exact h'.closing
      · have h' : Racing fds w' ((withRevents pfd revents).map (·.fd)) ((withRevents pfd revents).map (·.fd))
            (withRevents pfd revents) := by
          rw [map_withRevents]
          exact h'.perm (List.Perm.refl _) (List.Perm.refl _) fun r hr => mem_withRevents hr
        dsimp only
        split
        · exact ih _ _ h'
        · refine wp_bind.mpr (wp_mono (scan_racing hk _ 0 _ h') ?_ fun _ hc => hc)
          rintro ⟨pfd', won⟩ w' ⟨hclosing, hracing⟩
          cases won with
          | none => exact ih _ _ (hracing rfl)
          | some winner => exact hclosing
    · exact h.closing

/-- Induction on the entries: each open one is closed, unless it is the winner. -/
theorem closeLosers_closing (won : Option Int) (pfd : List Racer) (h : Closing fds w won pfd) :
    wp (closeLosers ⟨k.traced clock, tls, opt⟩ won pfd) (fun _ w' => Closing fds w' won []) Free w := by
  induction pfd generalizing w with
  | nil => exact h
  | cons r pfd ih =>
    unfold closeLosers
    by_cases hfd : 0 ≤ r.fd
    · have hp : (heldBy won (r :: pfd)).Perm (r.fd :: heldBy won pfd) := by
        unfold heldBy
        rw [List.map_cons, List.filter_cons_of_pos (by simpa using hfd)]
        exact List.perm_middle
      -- the winner's own entry is marked, so an entry that is not is another descriptor
      have hne : some r.fd ≠ won := by
        rintro rfl
        have hnodup := (h.mine.trans hp).nodup_iff.mp h.book.nodup
        exact (List.nodup_cons.mp hnodup).1 (List.mem_append_left _ List.mem_cons_self)
      rw [if_pos ⟨hfd, hne⟩]
      exact h.bind_close hk hp fun w' h' => ih h'
    · have he : heldBy won (r :: pfd) = heldBy won pfd := by
        unfold heldBy
        rw [List.map_cons, List.filter_cons_of_neg (by simpa using hfd)]
      rw [if_neg fun hc => hfd hc.1]
      exact ih ⟨h.book, he ▸ h.mine, h.flags⟩

/-- The timeouts of the winner change nothing that is kept track of. -/
theorem setTimeouts_closing {won : Option Int} (fd : Int) (h : Closing fds w won pfd) :
    wp (setTimeouts ⟨k.traced clock, tls, opt⟩ fd) (fun _ w' => Closing fds w' won pfd) Free w := by
  unfold setTimeouts
  refine h.bind_quiet (hk.setsockopt fd _ _) fun _ w h => ?_
  exact h.bind_quiet (hk.setsockopt fd _ _) fun _ w h => h

/-- However the race ends: during the connects, or in a later round. -/
theorem runRace_closing (n : Nat) (sel : List AddrInfo) (h : Racing fds w [] [] []) :
    wp (runRace ⟨k.traced clock, tls, opt⟩ n sel) (fun x w' => Closing fds w' x.2 x.1) Free w := by
  refine wp_bind.mpr (wp_mono (startRace_racing hk sel [] h) ?_ fun _ hc => hc)
  rintro ⟨pfd, won⟩ w ⟨hclosing, hracing⟩
  cases won with
  | some fd => exact hclosing
  | none => exact race_racing hk n _ pfd (hracing rfl)

end

/-! ## 4. What a race leaves behind -/

/-- What `l` did when the race was over with `r`. -/
structure Tidy (l : List Call) (r : Except Exit Int) : Prop where
  /-- what `socket` returned is closed once, but the winner, -/
  closed : ∀ ⦃pre fd post⦄, l = pre ++ .socket fd :: post → 0 ≤ fd → (r = .ok fd → .socket fd ∈ post) →
    closes fd post = 1
  /-- which is not closed; -/
  kept : ∀ ⦃pre fd post⦄, l = pre ++ .socket fd :: post → r = .ok fd → .socket fd ∉ post → closes fd post = 0
  /-- nothing else is closed, -/
  own : ∀ ⦃pre fd post⦄, l = pre ++ .close fd :: post → fd ∈ openFds pre
  /-- and the winner is all that is left open; -/
  left : openFds l = r.toOption.toList
  /-- each `poll` is given what is open and undecided; -/
  polled : ∀ ⦃pre fds slice rc elapsed post⦄, l = pre ++ .poll fds slice rc elapsed :: post →
    fds.Nodup ∧ ∀ fd, fd ∈ fds ↔ fd ∈ openFds pre ∧ fd ∈ undecided pre
  /-- and the last `F_SETFL` on the winner was given what `F_GETFL` returned for it, so that these are its
      flags unless that call failed. -/
  flags : ∀ ⦃fd⦄, r = .ok fd → ∃ v rc, saved l fd = some v ∧ restored l fd = some (v, rc) ∧
    (0 ≤ rc → status l fd = some v)

/-- When every entry has been closed, the books say the rest: of the descriptors that `socket` returned, one
    that is not open was closed once since (`drops_of_owned`), and only the winner is open. -/
theorem Closing.tidy {won : Option Int} (h : Closing fds w won []) {r : Except Exit Int}
    (hr : r.toOption = won) : Tidy w.trace r := by
  have hmine : openFds w.trace = won.toList := by
    have hp := h.mine
    rw [heldBy, List.map_nil, List.filter_nil, List.append_nil] at hp
    cases won with
    | none => exact hp.eq_nil
    | some fd => exact List.perm_singleton.mp hp
  have hdrops : ∀ {pre fd post}, w.trace = pre ++ .socket fd :: post → 0 ≤ fd →
      closes fd post = if .take fd ∉ post.filterMap Call.op ∧ fd ∈ openFds w.trace then 0 else 1 := by
    intro pre fd post hl hfd
    have hop : (Call.socket fd).op = some (.take fd) := if_neg (Int.not_lt.mpr hfd)
    have hops : w.trace.filterMap Call.op =
        pre.filterMap Call.op ++ .take fd :: post.filterMap Call.op := by
      rw [hl, List.filterMap_append, List.filterMap_cons_some hop]
    rw [closes_eq hfd, openFds, hops]
    exact drops_of_owned (hops ▸ h.book.fresh) (hops ▸ h.book.owned)
  have hwon : ∀ fd, fd ∈ openFds w.trace ↔ r = .ok fd := by
    intro fd
    rw [hmine, ← hr]
    cases r with
    | error e =>
      constructor
      · intro hm
        cases hm
      · intro he
        cases he
    | ok g => exact List.mem_singleton.trans ⟨fun e => e ▸ rfl, fun e => (Except.ok.inj e).symm⟩
  refine ⟨fun pre fd post hl hfd hr => ?_, fun pre fd post hl hr hnew => ?_, fun pre fd post hl => ?_,
    hmine.trans (congrArg Option.toList hr.symm), fun pre fds slice rc elapsed post hl => ?_, fun fd hfd => ?_⟩
  · refine (hdrops hl hfd).trans (if_neg fun hc => hc.1 ?_)
    exact (taken_iff hfd).mpr (hr ((hwon fd).mp hc.2))
  · have hfd : 0 ≤ fd := openFds_nonneg ((hwon fd).mpr hr)
    exact (hdrops hl hfd).trans (if_pos ⟨fun hm => hnew ((taken_iff hfd).mp hm), (hwon fd).mpr hr⟩)
  · have hops : w.trace.filterMap Call.op = pre.filterMap Call.op ++ .drop fd :: post.filterMap Call.op := by
      rw [hl, List.filterMap_append]
      rfl
    exact h.book.owned hops fd rfl
  · exact h.book.polled hl fds slice rc elapsed rfl
  · obtain ⟨v, rc, hs, hrest⟩ := h.flags fd (by rw [← hr, hfd]; rfl)
    exact ⟨v, rc, hs, hrest, status_of_restored hrest⟩

/-- The whole of `tcp_connect`, from an empty trace. -/
theorem tcpConnect_wp_tidy {k : Kernel σ} {clock : σ → Int} {tls : Tls (World (σ × List Call))}
    {opt : Options} (hk : Descriptors k fds) (n : Nat) (host port : List UInt8) (s : σ) (log : List Event) :
    wp (tcpConnect ⟨k.traced clock, tls, opt⟩ n host port) (fun r w' => Tidy w'.trace r) Free
      ⟨(s, []), log⟩ := by
  have hstart : Racing fds ⟨(s, []), log⟩ [] [] [] :=
    ⟨book_nil, List.Perm.refl _, List.Perm.refl _, fun _ hr => by cases hr⟩
  unfold tcpConnect
  refine hstart.bind_quiet (hk.getaddrinfo host port) fun res w h => ?_
  cases res with
  | error e => exact h.closing.tidy rfl
  | ok res =>
    dsimp only
    generalize candidates res = sel
    refine wp_bind.mpr (wp_mono (runRace_closing hk n sel h) ?_ fun _ hc => hc)
    rintro ⟨pfd, won⟩ w h
    refine wp_bind.mpr (wp_mono (closeLosers_closing hk won pfd h) ?_ fun _ hc => hc)
    intro _ w h
    cases won with
    | none => exact h.tidy rfl
    | some fd =>
      exact wp_bind.mpr (wp_mono (setTimeouts_closing hk fd h) (fun _ _ h => h.tidy rfl) fun _ hc => hc)

/-- **A race leaks nothing and closes nothing twice**: over a kernel that does with descriptors what a kernel
    does, whatever its calls return. -/
theorem tcpConnect_tidy {k : Kernel σ} {clock : σ → Int} {tls : Tls (World (σ × List Call))} {opt : Options}
    (hk : Descriptors k fds) {n : Nat} {host port : List UInt8} {s : σ} {log : List Event}
    {r : Except Exit Int}
    (h : Ends (tcpConnect ⟨k.traced clock, tls, opt⟩ n host port) ⟨(s, []), log⟩ r w') :
    Tidy w'.trace r :=
  h.of_wp (tcpConnect_wp_tidy hk n host port s log)

/-- An address of `AF_INET`. -/
def inet (addr : List UInt8) : AddrInfo := ⟨2, 1, 6, addr⟩

/-- Three connects: the last one fails in the first round, the first one wins in the second. -/
def threeConnects : Net :=
  ⟨[0, 1, 2], [inet [], inet [], inet []], [(.ok (1, [0, 0, 8]), 5), (.ok (1, [4]), 9)], 0, [5], 0⟩

theorem tcpConnect_tidy_three : ∃ w', Ends (Net.connect 30) ⟨(threeConnects, []), []⟩ (.ok 3) w' ∧
    Tidy w'.trace (.ok 3) := by
  have h : Ends (Net.connect 30) ⟨(threeConnects, []), []⟩ (.ok 3)
      (Net.connect 30 ⟨(threeConnects, []), []⟩).2 := ends_of_fst (by decide +kernel)
  exact ⟨_, h, tcpConnect_tidy Net.descriptors h⟩

/-- A connect that is done at once, and an `F_SETFL` that fails: the winner is returned, and stays
    `O_NONBLOCK`. -/
theorem not_flags_saved : ∃ w', Ends (Net.connect 30) ⟨(⟨[0, 1, 2], [inet [0]], [], -1, [], 0⟩, []), []⟩
    (.ok 3) w' ∧ status w'.trace 3 = some 0x802 ∧ status w'.trace 3 ≠ saved w'.trace 3 :=
  ⟨_, ends_of_fst rfl, by decide +kernel, by decide +kernel⟩

end P4Linux.Hget
