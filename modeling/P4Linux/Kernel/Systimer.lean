import Mathlib.Data.Nat.Bitwise
import Mathlib.Data.BitVec

/-!
# The system timer: reading the counter, arming the alarm

`timer-esp32p4-systimer.c` as patch 0001 brings it in (`baseline`) and as patch 0016 changes it (`hardened`). The
timer is a machine of its own: between any two accesses of the driver time goes by, the comparator may match, and
an interrupt may latch the counter again, for the latch is shared by all readers.

* `read64_iff` -- a value that is returned is the counter's at **an instant within the call**, and that takes the
  second read of the high word;
* `set_next_iff` -- an alarm that was accepted **comes**: nothing sees to that but the check after the comparator is
  armed;
* `set_next_late` -- and one that is refused had been passed.
-/

namespace P4Linux.Kernel.Systimer

/-! ## 1. The timer -/

/-- `now` and `latch` count the ticks since the counter was zero; the registers show 52 bits of them. -/
structure Timer where
  now : Nat
  /-- the instant in ST_UNIT0_VAL, and ST_UNIT0_OP_VALID -/
  latch : Nat
  valid : Bool
  /-- ST_TARGET0_HI, ST_TARGET0_LO, and what ST_COMP0_LOAD has taken from them -/
  targetHi : Nat
  targetLo : Nat
  compare : Nat
  /-- ST_CONF_TARGET0_EN -/
  armed : Bool
  /-- bit 0 of ST_INT_ENA and of ST_INT_RAW -/
  enabled : Bool
  raw : Bool
  deriving DecidableEq, Repr

/-- The value of the latch's two registers. -/
def Timer.hi (s : Timer) : Nat := s.latch % 2 ^ 52 / 2 ^ 32
def Timer.lo (s : Timer) : Nat := s.latch % 2 ^ 32

/-- ST_INT_ST: the interrupt is up. -/
def Timer.st (s : Timer) : Bool := s.raw && s.enabled

/-- Time goes by: an armed comparator that the counter comes to raises the interrupt, which stays. -/
structure Elapses (s s' : Timer) : Prop where
  now : s.now ≤ s'.now
  raw : s'.raw = true ↔
    s.raw = true ∨ s.armed = true ∧ ∃ t, s.now < t ∧ t ≤ s'.now ∧ t % 2 ^ 52 = s.compare
  compare : s'.compare = s.compare
  armed : s'.armed = s.armed
  enabled : s'.enabled = s.enabled
  targets : s'.targetHi = s.targetHi ∧ s'.targetLo = s.targetLo

/-- And the latch is as it was, or the timer or another reader has latched an instant since. -/
structure Passes (s s' : Timer) : Prop extends Elapses s s' where
  latch : s'.latch = s.latch ∧ s'.valid = s.valid ∨ s'.valid = true ∧ s.now ≤ s'.latch ∧ s'.latch ≤ s'.now

/-! ## 2. The driver -/

inductive Version where
  | baseline | hardened
  deriving DecidableEq, Repr

/-- `while (!(readl(..) & ST_UNIT0_OP_VALID));`. -/
inductive Wait : Timer → Timer → Prop where
  | valid {s s' : Timer} (h : Passes s s') (hv : s'.valid = true) : Wait s s'
  | again {s t s' : Timer} (h : Passes s t) (hv : t.valid = false) (rest : Wait t s') : Wait s s'

/-- `((u64)hi << 32) | lo`. -/
def join (hi lo : Nat) : Nat := (hi <<< 32) ||| lo

/-- The reads of the latch and the value that is made of them. Patch 0016 reads the high word again and goes back
    if it is another. -/
inductive Values : Version → Timer → Timer → Nat → Prop where
  | once {s a b : Timer} (ha : Passes s a) (hb : Passes a b) : Values .baseline s b (join a.hi b.lo)
  | same {s a b c : Timer} (ha : Passes s a) (hb : Passes a b) (hc : Passes b c) (h : a.hi = c.hi) :
      Values .hardened s c (join a.hi b.lo)
  | again {s a b c s' : Timer} {r : Nat} (ha : Passes s a) (hb : Passes a b) (hc : Passes b c) (h : a.hi ≠ c.hi)
      (rest : Values .hardened c s' r) : Values .hardened s s' r

/-- `esp32p4_systimer_read64`. -/
def Read64 (v : Version) (s s' : Timer) (r : Nat) : Prop :=
  ∃ t u, Passes s t ∧ Wait { t with valid := false } u ∧ Values v u s' r

/-- `(s64)(target - now) <= 0`. -/
def notAhead (target now : Nat) : Prop := (BitVec.ofNat 64 target - BitVec.ofNat 64 now).toInt ≤ 0

instance (target now : Nat) : Decidable (notAhead target now) := inferInstanceAs (Decidable (_ ≤ _))

/-- What `esp32p4_clkevt_set_next` returns. -/
inductive Ret where
  | ok | etime
  deriving DecidableEq, Repr

/-- The check of patch 0016, `s` being the timer when the comparator is armed. -/
inductive Checked (target : Nat) : Version → Timer → Timer → Ret → Prop where
  | none (s : Timer) : Checked target .baseline s s .ok
  | ahead {s s' : Timer} {r : Nat} (h : Read64 .hardened s s' r) (ha : ¬ notAhead target r) :
      Checked target .hardened s s' .ok
  | behind {s t s' : Timer} {r : Nat} (h : Read64 .hardened s t r) (ha : notAhead target r) (hraw : Passes t s') :
      Checked target .hardened s s' (if s'.raw then .ok else .etime)

/-- `esp32p4_clkevt_set_next(delta)`: disarm, compute, load, arm, check; `at'` is the timer when it is armed. -/
inductive SetNext (v : Version) (delta : Nat) (s at' s' : Timer) (ret : Ret) : Prop where
  | mk {a b c d e f g : Timer} {r : Nat} (h1 : Passes s a) (h2 : Read64 v { a with armed := false } b r)
      (h3 : Passes b c) (h4 : Passes { c with targetHi := (r + delta) / 2 ^ 32 % 2 ^ 20 } d)
      (h5 : Passes { d with targetLo := (r + delta) % 2 ^ 32 } e)
      (h6 : Passes { e with compare := e.targetHi * 2 ^ 32 + e.targetLo } f)
      (h7 : Passes { f with enabled := true } g) (harm : at' = { g with armed := true })
      (h8 : Checked (r + delta) v at' s' ret) : SetNext v delta s at' s' ret

/-! ## 3. Time -/

section Time

variable {s t u : Timer}

theorem Elapses.trans (h : Elapses s t) (h' : Elapses t u) : Elapses s u where
  now := h.now.trans h'.now
  raw := by
    rw [h'.raw, h.raw, h.armed, h.compare]
    constructor
    · rintro ((hr | ⟨ha, x, h1, h2, h3⟩) | ⟨ha, x, h1, h2, h3⟩)
      · exact .inl hr
      · exact .inr ⟨ha, x, h1, h2.trans h'.now, h3⟩
      · exact .inr ⟨ha, x, lt_of_le_of_lt h.now h1, h2, h3⟩
    · rintro (hr | ⟨ha, x, h1, h2, h3⟩)
      · exact .inl (.inl hr)
      · by_cases hx : x ≤ t.now
        · exact .inl (.inr ⟨ha, x, h1, hx, h3⟩)
        · exact .inr ⟨ha, x, by omega, h2, h3⟩
  compare := h'.compare.trans h.compare
  armed := h'.armed.trans h.armed
  enabled := h'.enabled.trans h.enabled
  targets := ⟨h'.targets.1.trans h.targets.1, h'.targets.2.trans h.targets.2⟩

/-- The latch holds an instant between `n` and now. -/
def Recent (n : Nat) (s : Timer) : Prop := n ≤ s.latch ∧ s.latch ≤ s.now

/-- The latch never goes back. -/
theorem Passes.recent {n : Nat} (h : Passes s t) (hs : Recent n s) : Recent n t ∧ s.latch ≤ t.latch := by
  have hnow := h.now
  obtain ⟨h1, h2⟩ := hs
  unfold Recent
  rcases h.latch with ⟨e, -⟩ | ⟨-, h3, h4⟩ <;> omega

/-- A wait that began with the latch invalid ends with an instant that is later. -/
theorem Wait.recent (h : Wait s t) (hv : s.valid = false) : Recent s.now t ∧ Elapses s t := by
  induction h with
  | valid h hv' =>
    refine ⟨?_, h.toElapses⟩
    rcases h.latch with ⟨-, e⟩ | ⟨-, h1, h2⟩
    · rw [e, hv] at hv'
      cases hv'
    · exact ⟨h1, h2⟩
  | again h hv' rest ih =>
    obtain ⟨⟨h1, h2⟩, he⟩ := ih hv'
    exact ⟨⟨h.now.trans h1, h2⟩, h.toElapses.trans he⟩

theorem Values.elapses {v : Version} {r : Nat} (h : Values v s t r) : Elapses s t := by
  induction h with
  | once ha hb => exact ha.toElapses.trans hb.toElapses
  | same ha hb hc => exact (ha.toElapses.trans hb.toElapses).trans hc.toElapses
  | again ha hb hc _ _ ih => exact ((ha.toElapses.trans hb.toElapses).trans hc.toElapses).trans ih

theorem Read64.elapses {v : Version} {r : Nat} (h : Read64 v s t r) : Elapses s t := by
  obtain ⟨a, u, ha, hw, hv⟩ := h
  obtain ⟨-, he⟩ := hw.recent rfl
  exact (ha.toElapses.trans ⟨he.now, he.raw, he.compare, he.armed, he.enabled, he.targets⟩).trans hv.elapses

end Time

/-! ## 4. Reading -/

theorem join_eq (hi : Nat) {lo : Nat} (h : lo < 2 ^ 32) : join hi lo = hi * 2 ^ 32 + lo := by
  rw [join, ← Nat.shiftLeft_add_eq_or_of_lt h, Nat.shiftLeft_eq]

/-- From `a` to `c` the high word cannot come round to what it was: it takes a whole turn of the counter for
    that, or a carry out of its 52 bits. -/
def Near (a c : Nat) : Prop := c - a < 2 ^ 52 - 2 ^ 32 ∨ c / 2 ^ 52 = a / 2 ^ 52

theorem Near.within {a b c d : Nat} (h : Near a d) (hab : a ≤ b) (hcd : c ≤ d) : Near b c ∨ c < b := by
  unfold Near at *
  omega

/-- Three instants, the outer two with the same high word: the middle one has it too. -/
theorem join_latches {a b c : Nat} (hab : a ≤ b) (hbc : b ≤ c) (hnear : Near a c)
    (h : a % 2 ^ 52 / 2 ^ 32 = c % 2 ^ 52 / 2 ^ 32) : join (a % 2 ^ 52 / 2 ^ 32) (b % 2 ^ 32) = b % 2 ^ 52 := by
  rw [join_eq _ (Nat.mod_lt _ (by decide))]
  unfold Near at hnear
  omega

theorem Values.linear {s s' : Timer} {r n : Nat} (h : Values .hardened s s' r) (hs : Recent n s)
    (hnear : Near n s'.now) : ∃ t, n ≤ t ∧ t ≤ s'.now ∧ r = t % 2 ^ 52 := by
  generalize hv : Version.hardened = v at h
  induction h with
  | once => cases hv
  | @same s a b c ha hb hc heq =>
    obtain ⟨hra, -⟩ := ha.recent hs
    obtain ⟨hrb, hab⟩ := hb.recent hra
    obtain ⟨hrc, hbc⟩ := hc.recent hrb
    have hb1 := hrb.1
    have hc2 := hrc.2
    have hle : a.latch ≤ c.latch := hab.trans hbc
    exact ⟨b.latch, hb1, by omega,
      join_latches hab hbc ((hnear.within hra.1 hrc.2).resolve_right (by omega)) heq⟩
  | @again s a b c s' r ha hb hc _ rest ih =>
    exact ih (hc.recent (hb.recent (ha.recent hs).1).1).1 hnear hv

theorem Read64.linear {s s' : Timer} {r : Nat} (h : Read64 .hardened s s' r) (hnear : Near s.now s'.now) :
    ∃ t, s.now ≤ t ∧ t ≤ s'.now ∧ r = t % 2 ^ 52 := by
  have hle := h.elapses.now
  obtain ⟨a, u, ha, hw, hv⟩ := h
  obtain ⟨hrec, helw⟩ := hw.recent rfl
  have hnow := ha.now
  have hend : a.now ≤ s'.now := (show a.now ≤ u.now from helw.now).trans hv.elapses.now
  change Recent a.now u at hrec
  obtain ⟨t, h1, h2, e⟩ := hv.linear hrec ((hnear.within hnow le_rfl).resolve_right (by omega))
  exact ⟨t, hnow.trans h1, h2, e⟩

/-- What the driver reads is the counter at an instant within the call. -/
def Linear (v : Version) : Prop :=
  ∀ (s s' : Timer) (r : Nat), Read64 v s s' r → s'.now - s.now < 2 ^ 52 - 2 ^ 32 →
    ∃ t, s.now ≤ t ∧ t ≤ s'.now ∧ r = t % 2 ^ 52

theorem linear_hardened : Linear .hardened := by
  intro s s' r h hlt
  exact h.linear (.inl hlt)

/-- The timer latches at once. -/
def Timer.latched (s : Timer) : Timer := { s with latch := s.now, valid := true }

theorem Passes.still (s : Timer) : Passes s s.latched :=
  ⟨⟨le_rfl, by simp [Timer.latched]; intros; omega, rfl, rfl, rfl, rfl, rfl⟩, .inr ⟨rfl, le_rfl, le_rfl⟩⟩

/-- The clock may go on by itself while no alarm is armed. -/
theorem Passes.idle {s : Timer} (hs : s.armed = false) {n : Nat} (hn : s.now ≤ n) : Passes s { s with now := n } :=
  ⟨⟨hn, by simp [hs], rfl, rfl, rfl, rfl, rfl⟩, .inl ⟨rfl, rfl⟩⟩

/-- The clock just before the low word goes over. -/
def before : Timer := ⟨2 ^ 32 - 1, 2 ^ 32 - 1, true, 0, 0, 0, false, false, false⟩

/-- Without the second read the high word of one instant is put before the low word of another. -/
theorem not_linear_baseline : ¬ Linear .baseline := by
  intro h
  let after := Timer.latched { before with now := 2 ^ 32 }
  have hgo : Passes before after :=
    ⟨(Passes.idle rfl (by decide)).toElapses.trans (Passes.still _).toElapses, .inr ⟨rfl, by decide, le_rfl⟩⟩
  have hr : Read64 .baseline before after (join before.hi after.lo) :=
    ⟨before, before, .still _, .valid (.still _) rfl, .once (.still _) hgo⟩
  rw [show join before.hi after.lo = 0 by decide] at hr
  obtain ⟨t, h1, h2, e⟩ := h before after 0 hr (by decide)
  change 2 ^ 32 - 1 ≤ t at h1
  change t ≤ 2 ^ 32 at h2
  omega

/-- **A value that is returned is the counter's at an instant within the call**, in one version only. -/
theorem read64_iff (v : Version) : Linear v ↔ v = .hardened := by
  cases v with
  | baseline => simp [not_linear_baseline]
  | hardened => simp [linear_hardened]

/-! ## 5. The alarm -/

/-- For values of 52 bits and a little more the signed difference is the plain comparison. -/
theorem notAhead_iff {target now : Nat} (ht : target < 2 ^ 63) (hn : now < 2 ^ 63) :
    notAhead target now ↔ target ≤ now := by
  have hsmall : ∀ n : Nat, n < 2 ^ 63 → (BitVec.ofNat 64 n).toInt = n := by
    intro n hn
    rw [BitVec.toInt_ofNat']
    exact Int.bmod_eq_of_le (by omega) (by omega)
  unfold notAhead
  rw [BitVec.toInt_sub, hsmall target ht, hsmall now hn, Int.bmod_eq_of_le (by omega) (by omega)]
  omega

section Alarm

variable {v : Version} {delta : Nat} {s at' s' : Timer} {ret : Ret}

/-- When the comparator is armed it holds the target, whatever came in between. -/
theorem SetNext.target (h : SetNext v delta s at' s' ret) : ∃ a b r, s.now ≤ a.now ∧ Read64 v a b r ∧
    b.now ≤ at'.now ∧ at'.compare = (r + delta) % 2 ^ 52 ∧ at'.armed = true ∧ at'.enabled = true ∧
    Checked (r + delta) v at' s' ret := by
  obtain @⟨a, b, c, d, e, f, g, r, h1, h2, h3, h4, h5, h6, h7, harm, h8⟩ := h
  have hnow : b.now ≤ g.now :=
    h3.now.trans (h4.now.trans (h5.now.trans (h6.now.trans h7.now)))
  have hhi : e.targetHi = (r + delta) / 2 ^ 32 % 2 ^ 20 := h5.targets.1.trans h4.targets.1
  have hlo : e.targetLo = (r + delta) % 2 ^ 32 := h5.targets.2
  have hcmp : g.compare = e.targetHi * 2 ^ 32 + e.targetLo := h7.compare.trans h6.compare
  subst harm
  refine ⟨{ a with armed := false }, b, r, h1.now, h2, hnow, ?_, rfl, h7.enabled, h8⟩
  change g.compare = _
  rw [hcmp, hhi, hlo]
  omega

theorem Checked.elapses {target : Nat} (h : Checked target v s s' ret) : Elapses s s' := by
  cases h with
  | none => exact ⟨le_rfl, by simp; intros; omega, rfl, rfl, rfl, rfl, rfl⟩
  | ahead h => exact h.elapses
  | behind h _ hraw => exact h.elapses.trans hraw.toElapses

/-- What the check comes to: the target is an instant after the one of the driver's first read. It was accepted with
    the comparator armed before it or the interrupt up, where the counter has not gone over meanwhile; it was refused
    when it had gone by, without an interrupt, and over or not. -/
theorem SetNext.checked (h : SetNext .hardened delta s at' s' ret) (hd : delta < 2 ^ 32)
    (hnear : Near s.now s'.now) :
    ∃ T, s.now + delta ≤ T ∧ T ≤ s'.now + delta ∧ s'.compare = T % 2 ^ 52 ∧ s'.armed = true ∧
      s'.enabled = true ∧ Elapses at' s' ∧
      (ret = .ok ∧ (s'.now / 2 ^ 52 = s.now / 2 ^ 52 → at'.now < T ∨ s'.raw = true) ∨
        ret = .etime ∧ T ≤ s'.now ∧ s'.raw = false) := by
  obtain ⟨a, b, r, ha, hread, hb, hcmp, harm, hen, hchk⟩ := h.target
  have hel := hchk.elapses
  have hab := hread.elapses.now
  have hnow := hel.now
  have hturn : s'.now < s.now + 2 ^ 52 := by
    unfold Near at hnear
    omega
  have hread' : ∀ {x y : Timer} {q : Nat}, Read64 .hardened x y q → s.now ≤ x.now → y.now ≤ s'.now →
      ∃ u, x.now ≤ u ∧ u ≤ y.now ∧ q = u % 2 ^ 52 := fun hq hx hy =>
    hq.linear ((hnear.within hx hy).resolve_right (Nat.not_lt.mpr hq.elapses.now))
  obtain ⟨t, ht1, ht2, hr⟩ := hread' hread ha (hb.trans hnow)
  have hT : (t + delta) % 2 ^ 52 = (r + delta) % 2 ^ 52 := by omega
  refine ⟨t + delta, by omega, by omega, ?_, hel.armed.trans harm, hel.enabled.trans hen, hel, ?_⟩
  · rw [hel.compare, hcmp, hT]
  · cases hchk with
    | @ahead _ _ r' h' hah =>
      obtain ⟨u, hu1, hu2, hr'⟩ := hread' h' (by omega) le_rfl
      rw [notAhead_iff (by omega) (by omega)] at hah
      exact .inl ⟨rfl, fun hep => .inl (by omega)⟩
    | @behind _ c _ r' h' hah hraw =>
      have hn' := hraw.now
      obtain ⟨u, hu1, hu2, hr'⟩ := hread' h' (by omega) hn'
      rw [notAhead_iff (by omega) (by omega)] at hah
      cases hr : s'.raw with
      | true => exact .inl ⟨rfl, fun _ => .inr rfl⟩
      | false => exact .inr ⟨rfl, by omega, rfl⟩

/-- The alarm of an accepted request: it is set for `delta` after an instant within the call, and from then on the
    interrupt is up. The counter does not go over within the call. -/
def Comes (v : Version) : Prop :=
  ∀ (delta : Nat) (s at' s' : Timer), SetNext v delta s at' s' .ok → delta < 2 ^ 32 →
    s'.now / 2 ^ 52 = s.now / 2 ^ 52 →
    ∃ T, s.now + delta ≤ T ∧ T ≤ s'.now + delta ∧ ∀ s'', Elapses s' s'' → T ≤ s''.now → s''.st = true

/-- A call nothing comes in between of, but the clock goes on to `n` before the comparator is armed. -/
def Timer.set (s : Timer) (target n : Nat) : Timer :=
  { s.latched with
    now := n
    targetHi := target / 2 ^ 32 % 2 ^ 20
    targetLo := target % 2 ^ 32
    compare := target / 2 ^ 32 % 2 ^ 20 * 2 ^ 32 + target % 2 ^ 32
    armed := true
    enabled := true }

theorem read64_now (v : Version) (s : Timer) : Read64 v s s.latched (join s.latched.hi s.latched.lo) := by
  refine ⟨s.latched, s.latched, .still s, .valid (.still _) rfl, ?_⟩
  cases v with
  | baseline => exact .once (.still _) (.still _)
  | hardened => exact .same (.still _) (.still _) (.still _) rfl

theorem SetNext.of_checked {n target : Nat} (hs : s.armed = false) (hn : s.now ≤ n)
    (ht : join s.latched.hi s.latched.lo + delta = target) (h : Checked target v (s.set target n) s' ret) :
    SetNext v delta s (s.set target n) s' ret := by
  subst ht
  have hsame : { s.latched with armed := false } = s.latched := by rw [Timer.latched, ← hs]
  have hread : Read64 v { s.latched with armed := false } s.latched (join s.latched.hi s.latched.lo) := by
    rw [hsame]
    exact read64_now v s.latched
  refine SetNext.mk (.still s) hread (.still _) (.still _) (.still _) (.still _) (Passes.idle (n := n) ?_ ?_) ?_ h
  · exact hs
  · exact hn
  · rfl

theorem comes_hardened : Comes .hardened := by
  intro delta s at' s' h hd hep
  obtain ⟨T, h1, h2, hcmp, harm, hen, hel, hcase⟩ := h.checked hd (.inr hep)
  refine ⟨T, h1, h2, ?_⟩
  intro s'' he hT
  have hraw : s''.raw = true := by
    obtain ⟨-, hok⟩ | ⟨hret, -⟩ := hcase
    · rcases hok hep with hat | hraw
      · refine (hel.trans he).raw.2 (.inr ⟨hel.armed ▸ harm, T, hat, hT, ?_⟩)
        rw [← hcmp, hel.compare]
      · exact he.raw.2 (.inl hraw)
    · cases hret
  rw [Timer.st, hraw, he.enabled, hen]
  rfl

/-- Without the check the alarm can be armed when the counter has gone by. -/
theorem not_comes_baseline : ¬ Comes .baseline := by
  intro h
  let at' := before.set (2 ^ 32) (2 ^ 32 + 1)
  have hset : SetNext .baseline 1 before at' at' .ok := .of_checked rfl (by decide) (by decide) (.none _)
  obtain ⟨T, -, h2, h3⟩ := h 1 before at' at' hset (by decide) (by decide)
  have hel : Elapses at' { at' with now := 2 ^ 32 + 2 } := by
    refine ⟨by decide, ?_, rfl, rfl, rfl, rfl, rfl⟩
    constructor
    · intro hraw
      cases hraw
    · rintro (hraw | ⟨-, t, ht1, ht2, ht3⟩)
      · cases hraw
      · change 2 ^ 32 + 1 < t at ht1
        change t ≤ 2 ^ 32 + 2 at ht2
        change t % 2 ^ 52 = 2 ^ 32 at ht3
        omega
  cases h3 _ hel h2

/-- **An alarm that was accepted comes**, in one version only. -/
theorem set_next_iff (v : Version) : Comes v ↔ v = .hardened := by
  cases v with
  | baseline => simp [not_comes_baseline]
  | hardened => simp [comes_hardened]

/-- **A refused alarm had been passed**, and would have stayed away until the counter has gone round; it may go over
    within the call. -/
theorem set_next_late (h : SetNext .hardened delta s at' s' .etime) (hd : delta < 2 ^ 32)
    (hlt : s'.now - s.now < 2 ^ 52 - 2 ^ 32) :
    ∃ T, s.now + delta ≤ T ∧ T ≤ s'.now ∧
      ∀ s'', Elapses s' s'' → s''.now < T + 2 ^ 52 → s''.st = false := by
  obtain ⟨T, h1, -, hcmp, -, -, -, hcase⟩ := h.checked hd (.inl hlt)
  obtain ⟨hret, -⟩ | ⟨-, hT, hraw⟩ := hcase
  · cases hret
  · refine ⟨T, h1, hT, ?_⟩
    intro s'' he hlast
    have hdown : s''.raw ≠ true := by
      intro hup
      obtain hr | ⟨-, t, ht1, ht2, ht3⟩ := he.raw.1 hup
      · rw [hraw] at hr
        cases hr
      · omega
    simp [Timer.st, hdown]

theorem set_next_late_over : ∃ T, 2 ^ 32 ≤ T ∧ T ≤ 2 ^ 32 + 1 ∧
    ∀ s'', Elapses (Timer.latched (before.set (2 ^ 32) (2 ^ 32 + 1))) s'' → s''.now < T + 2 ^ 52 → s''.st = false := by
  have hset : SetNext .hardened 1 before (before.set (2 ^ 32) (2 ^ 32 + 1))
      (Timer.latched (before.set (2 ^ 32) (2 ^ 32 + 1))) .etime :=
    .of_checked rfl (by decide) (by decide) (.behind (read64_now _ _) (by decide) (.still _))
  exact set_next_late hset (by decide) (by decide)

end Alarm

end P4Linux.Kernel.Systimer
