import P4Linux.Hget.Chain
import P4Linux.Hget.Session

/-!
# Which response `fetch` delivers

* `Final` -- a response that is no interim one and no redirect, by its header block;
* `fields_location` -- of the Location fields of a block the walk keeps the last that fits;
* `last_final_iff` -- a response whose body was delivered is final if and only if it is `Tracked`;
* `fetch_final_iff` -- so is what a run delivered that returned `EX_OK`.
-/

namespace P4Linux.Hget

open C Proc

/-! ## 1. Responses, by their header blocks -/

/-- What comes before the first empty line of a stream. -/
def headerBlock (l : List UInt8) : List UInt8 := l.take ((find crlf2 l).getD l.length)

def statusLine (block : List UInt8) : List UInt8 := (splitCrlf block).headD []

/-- The number behind the first space of the status line. -/
def statusOf (block : List UInt8) : Option Int :=
  (find [32] (statusLine block)).map fun k => atoi ((statusLine block).drop (k + 1))

example : statusOf (httpSlash ++ [49, 46, 49, 32, 51, 48, 50, 32, 70, 111, 117, 110, 100, 13, 10, 88, 58]) =
    some 302 := by decide

/-- The value of a Location line. -/
def locationOf (line : List UInt8) : Option (List UInt8) :=
  if ciPrefix line locationField then some (skipWs (line.drop 9)) else none

/-- The values of the Location lines of a block. -/
def locations (block : List UInt8) : List (List UInt8) := (splitCrlf block).tail.filterMap locationOf

/-- `strlen(v) < sizeof(r->location)`. -/
def fits (v : List UInt8) : Bool := v.length < urlbuf

/-- A final response, and no redirect. -/
structure Final (block : List UInt8) : Prop where
  interim : ∀ s, statusOf block = some s → ¬ (100 ≤ s ∧ s < 200)
  redirect : ∀ s, statusOf block = some s → 300 ≤ s → s < 400 → ∀ v ∈ locations block, v = []

/-- A response that is not an interim one, and of whose Location lines before a NUL the last that fits
    the buffer is not empty, if it is a redirect that has any Location at all. -/
structure Tracked (block : List UInt8) : Prop where
  interim : ∀ s, statusOf block = some s → ¬ (100 ≤ s ∧ s < 200)
  redirect : ∀ s, statusOf block = some s → 300 ≤ s → s < 400 → (∃ v ∈ locations block, v ≠ []) →
    ∃ v, ((locations (cstr block)).filter fits).getLast? = some v ∧ v ≠ []

theorem Final.tracked {block : List UInt8} (h : Final block) : Tracked block where
  interim := h.interim
  redirect s hs h3 h4 hv := by
    obtain ⟨v, hv, hne⟩ := hv
    exact absurd (h.redirect s hs h3 h4 v hv) hne

/-! ## 2. The Location that is kept -/

/-- A line has one name. -/
theorem ciPrefix_location {line : List UInt8} (h : ciPrefix line locationField = true) :
    ciPrefix line contentLength = false ∧ ciPrefix line transferEncoding = false := by
  cases line with
  | nil => cases h
  | cons a line =>
    have ha : lower a = lower 108 := by
      by_contra hne
      unfold locationField ciPrefix at h
      rw [if_pos hne] at h
      cases h
    unfold contentLength transferEncoding ciPrefix
    rw [ha]
    exact ⟨if_pos (by decide), if_pos (by decide)⟩

theorem headerLine_location (r : Resp) (line : List UInt8) : (headerLine r line).location =
    (((locationOf line).toList.filter fits).getLastD r.location) := by
  unfold headerLine locationOf
  cases hloc : ciPrefix line locationField with
  | true =>
    obtain ⟨hlen, henc⟩ := ciPrefix_location hloc
    rw [hlen, henc, if_neg Bool.false_ne_true, if_neg Bool.false_ne_true, if_pos rfl, if_pos rfl]
    dsimp only [Option.toList_some]
    by_cases hfit : (skipWs (line.drop 9)).length < urlbuf
    · have hv : fits (skipWs (line.drop 9)) = true := decide_eq_true hfit
      rw [if_pos hfit, List.filter_cons_of_pos hv]
      rfl
    · have hv : ¬ fits (skipWs (line.drop 9)) = true := fun h => hfit (of_decide_eq_true h)
      rw [if_neg hfit, List.filter_cons_of_neg hv]
      rfl
  | false =>
    dsimp only
    repeat' split
    all_goals first | rfl | contradiction

/-- **The Location that is kept** is the last one that fits. -/
theorem fields_location (lines : List (List UInt8)) (r : Resp) : (lines.foldl headerLine r).location =
    ((lines.filterMap locationOf).filter fits).getLastD r.location := by
  induction lines generalizing r with
  | nil => rfl
  | cons line lines ih =>
    rw [List.foldl_cons, ih, headerLine_location, List.filterMap_cons]
    cases locationOf line with
    | none => rfl
    | some v =>
      dsimp only [Option.toList_some]
      by_cases hfit : fits v = true
      · rw [List.filter_cons_of_pos hfit, List.filter_cons_of_pos hfit, List.getLastD_cons,
          List.getLastD_cons]
        rfl
      · rw [List.filter_cons_of_neg hfit, List.filter_cons_of_neg hfit]
        rfl

/-! ## 3. The status -/

theorem atoi_white {l : List UInt8} (h : ∀ c ∈ l, isSpace c = true) : atoi l = 0 := by
  have hl := atoi_spaces h []
  rw [List.append_nil] at hl
  rw [hl]
  rfl

/-- The status line and what follows it. -/
theorem statusLine_append (block t : List UInt8) :
    ∃ t', block ++ 13 :: t = statusLine block ++ 13 :: t' := by
  unfold statusLine
  cases h : find crlf block with
  | none =>
    rw [splitCrlf_none h]
    exact ⟨t, rfl⟩
  | some i =>
    obtain ⟨u, hu⟩ := (find_some h).1
    rw [splitCrlf_find h]
    refine ⟨10 :: u ++ 13 :: t, ?_⟩
    conv_lhs => rw [← List.take_append_drop i block, ← hu]
    rw [List.append_assoc]
    rfl

/-- The status that the code reads is the one in the status line, if there is one. -/
theorem statusOf_text {block t : List UInt8} {k : Nat} {s : Int}
    (hk : find [32] (cstr (block ++ 13 :: t)) = some k) (hs : statusOf block = some s) (hpos : s ≠ 0) :
    atoi ((block ++ 13 :: t).drop (k + 1)) = s := by
  obtain ⟨t', ht⟩ := statusLine_append block t
  unfold statusOf at hs
  rcases find_char_cases 32 (statusLine block) with ⟨-, hnone⟩ | ⟨pre, u, hline, h32, hfind⟩
  · rw [hnone] at hs
    cases hs
  have hu : atoi ((statusLine block).drop (pre.length + 1)) = s := by
    rw [hfind] at hs
    exact Option.some.inj hs
  rw [hline, ← List.drop_drop, List.drop_left' rfl, List.drop_one, List.tail_cons] at hu
  rw [← hu] at hpos ⊢
  rw [ht, hline, List.append_assoc, List.cons_append] at hk ⊢
  by_cases h0 : 0 ∈ pre
  · -- a NUL comes first, and the string has no space
    obtain ⟨a, b, rfl⟩ := List.append_of_mem h0
    rw [List.mem_append, not_or] at h32
    rw [List.append_assoc, List.cons_append, cstr_append_nul,
      find_char_none fun hc => h32.1 (( cstr_prefix a).subset hc)] at hk
    cases hk
  · obtain ⟨hfind, hdrop'⟩ := find_space h32 h0 (u ++ 13 :: t')
    obtain rfl : pre.length = k := Option.some.inj (hfind.symm.trans hk)
    rw [hdrop']
    refine strtol_append_cr ?_ t'
    by_contra hno
    refine hpos (atoi_white fun c hc => ?_)
    by_contra hspace
    exact hno ⟨c, hc, Bool.eq_false_iff.mpr hspace⟩

/-! ## 4. The response that was delivered -/

section

variable {σ : Type} {sys : Sys σ} {rem : Conn → World σ → List UInt8} {outpath : Option (List UInt8)}

/-- **A response whose body was delivered** is final if and only if it is tracked. -/
theorem last_final_iff (hr : Receives sys rem) (hf : sys.opt.follow = true) {n : Nat} {hop : Hop σ}
    {w' : World σ} (h : Last sys outpath n hop w') :
    Final (headerBlock (rem hop.conn hop.sent)) ↔ Tracked (headerBlock (rem hop.conn hop.sent)) := by
  refine ⟨Final.tracked, fun ht => ⟨ht.interim, fun s hs h3 h4 v hv => ?_⟩⟩
  by_contra hne
  obtain ⟨hdrbuf, url, w, hbuf, hans⟩ := h.answered
  obtain ⟨i, t, k, hi, -, -, hk, hhead⟩ := readHeaders_parsed (peer_streams hr _ _ _) hbuf hans.headers
  have hblock : headerBlock (rem hop.conn hop.sent) = (rem hop.conn hop.sent).take i := by
    unfold headerBlock
    rw [hi]
    rfl
  rw [hblock] at hs hv ht
  -- its Location is kept, and its status is the one of the block
  obtain ⟨kept, hkept, hne'⟩ := ht.redirect s hs h3 h4 ⟨v, hv, hne⟩
  have hloc : hop.resp.location = kept := by
    have hl : hop.resp.location = _ := congrArg (fun a => a.2.2.2) hhead
    rw [hl]
    show (List.foldl headerLine _ _).location = kept
    rw [fields_location, List.getLastD_eq_getLast?]
    unfold fieldLines
    unfold locations at hkept
    rw [hkept]
    rfl
  have hstatus : hop.resp.status = s := by
    have hst : hop.resp.status = _ := congrArg (fun a => a.1) hhead
    rw [hst]
    show (List.foldl headerLine _ _).status = s
    rw [fields_status]
    exact statusOf_text hk hs (by omega)
  -- so it was followed
  have hfollows : follows sys.opt hop.resp = true := by
    unfold follows
    rw [hloc, hstatus]
    exact decide_eq_true ⟨h3, h4, hne', hf⟩
  rw [h.not_followed] at hfollows
  cases hfollows

variable (sys rem outpath)

/-- What was delivered is the body of a response with `q`. -/
def DeliversFrom (q : List UInt8 → Prop) (n : Nat) (hdrbuf url : List UInt8) (w w' : World σ) : Prop :=
  ∃ before last, Chain sys outpath n hdrbuf url w (before ++ [last]) w' ∧
    q (headerBlock (rem last.conn last.sent))

variable {sys rem outpath}

/-- **A run that returned `EX_OK`** delivered the body of a final response if and only if the last
    response of its chain is tracked. -/
theorem fetch_final_iff (hr : Receives sys rem) (hf : sys.opt.follow = true) {n depth : Nat}
    {hdrbuf url : List UInt8} {w w' : World σ} (hbuf : hdrbuf.length = hdrbufSize)
    (h : Ends (fetch sys n hdrbuf url outpath depth) w .ok w') :
    DeliversFrom sys rem outpath Final n hdrbuf url w w' ↔
      DeliversFrom sys rem outpath Tracked n hdrbuf url w w' := by
  obtain ⟨hops, hchain⟩ := fetch_chain h
  obtain ⟨before, last, m, rfl, hlast⟩ := hchain.exists_last hr hbuf
  have hiff := last_final_iff hr hf hlast
  have hthis : ∀ q, DeliversFrom sys rem outpath q n hdrbuf url w w' ↔
      q (headerBlock (rem last.conn last.sent)) := by
    intro q
    constructor
    · intro hlast
      obtain ⟨before', last', hchain', hq⟩ := hlast
      obtain ⟨-, rfl⟩ := List.append_singleton_inj.mp (hchain.unique hchain')
      exact hq
    · exact fun hq => ⟨before, last, hchain, hq⟩
  rw [hthis, hthis]
  exact hiff

end

/-! ## 5. Two runs -/

theorem Tape.receives : Receives Tape.sys fun _ w => w.kernel.rest where
  recv fd len w data w' h := by
    obtain ⟨he, rfl⟩ := Prod.mk.inj (ends_step.mp h)
    cases he
    refine ⟨List.length_take_le _ _, (List.take_append_drop _ _).symm, fun hnil hlen => ?_⟩
    exact (List.take_eq_nil_iff.mp hnil).resolve_left (by omega)
  interrupted fd len w w' h := by cases (Prod.mk.inj (ends_step.mp h)).1
  read fd len w data w' h := by cases (ends_pure.mp h).1
  again fd len w e w' h he := by
    obtain ⟨-, rfl⟩ := ends_pure.mp h
    rfl
  closed fd len w w' h := by cases (ends_pure.mp h).1

theorem fetch_final_redirect : ∃ w', Ends Tape.run Tape.start .ok w' ∧
    (DeliversFrom Tape.sys (fun _ w => w.kernel.rest) (some [102]) Final 9 (List.replicate hdrbufSize 0)
        (httpScheme ++ [97]) Tape.start w' ↔
      DeliversFrom Tape.sys (fun _ w => w.kernel.rest) (some [102]) Tracked 9 (List.replicate hdrbufSize 0)
        (httpScheme ++ [97]) Tape.start w') := by
  obtain ⟨rc, w', h, hrc⟩ := exists_ends (x := Tape.run) (s := Tape.start) (p := fun a => a = .ok)
    (by decide +kernel)
  obtain rfl : rc = .ok := of_decide_eq_true hrc
  exact ⟨w', h, fetch_final_iff Tape.receives rfl List.length_replicate h⟩

/-- `HTTP/1.1 100 CRLF CRLF`, and then `HTTP/1.1 200 CRLF CRLF hi`. -/
def interimReply : List UInt8 :=
  [72, 84, 84, 80, 47, 49, 46, 49, 32, 49, 48, 48, 13, 10, 13, 10,
    72, 84, 84, 80, 47, 49, 46, 49, 32, 50, 48, 48, 13, 10, 13, 10, 104, 105]

def Tape.interim : World Tape := ⟨⟨[0, 1, 2], [interimReply], []⟩, []⟩

/-- The connection to `http://a`, and the request. -/
def Tape.opened : World Tape := (connOpen Tape.sys 8 [97] [56, 48] false Tape.interim).2

def Tape.asked : World Tape :=
  (connWrite Tape.sys ⟨3, false⟩ 8 (request ⟨false, [97], [56, 48], [47]⟩) Tape.opened).2

theorem Tape.answered {hop : Hop Tape} (h : Answered Tape.sys 8 (List.replicate hdrbufSize 0)
    (httpScheme ++ [97]) Tape.interim hop) :
    hop.conn = ⟨3, false⟩ ∧ hop.sent = Tape.asked ∧ follows Tape.sys.opt hop.resp = false := by
  obtain ⟨⟨u, w₁, hu, hopen, hsent⟩, hread⟩ := h
  obtain rfl : u = ⟨false, [97], [56, 48], [47]⟩ := (Except.ok.inj hu).symm
  have hopened : Ends (connOpen Tape.sys 8 [97] [56, 48] false) Tape.interim (.ok ⟨3, false⟩) Tape.opened :=
    ends_of_fst (by decide +kernel)
  obtain ⟨he, rfl⟩ := hopen.unique hopened
  have hconn : hop.conn = ⟨3, false⟩ := Except.ok.inj he
  rw [hconn] at hsent hread
  have hasked : Ends (connWrite Tape.sys ⟨3, false⟩ 8 (request ⟨false, [97], [56, 48], [47]⟩)) Tape.opened true
      Tape.asked := ends_of_fst (by decide +kernel)
  obtain ⟨-, hsent⟩ := hsent.unique hasked
  rw [hsent] at hread
  obtain ⟨⟨e, r, buf⟩, t, hr, hf⟩ := exists_ends
    (x := readHeaders (peer Tape.sys 8 ⟨3, false⟩ stdoutFileno) 8 (List.replicate hdrbufSize 0))
    (s := Tape.asked) (p := fun a => follows Tape.sys.opt a.2.1 = false) (by decide +kernel)
  obtain ⟨he, -⟩ := hread.unique hr
  cases he
  exact ⟨hconn, hsent, of_decide_eq_true hf⟩

/-- An interim response is taken for the final one: its body is the response that follows it. -/
theorem not_fetch_final : ∃ w', Ends (fetch Tape.sys 9 (List.replicate hdrbufSize 0) (httpScheme ++ [97])
      none 0) Tape.interim .ok w' ∧
    ¬ DeliversFrom Tape.sys (fun _ w => w.kernel.rest) none Final 9 (List.replicate hdrbufSize 0)
      (httpScheme ++ [97]) Tape.interim w' := by
  obtain ⟨rc, w', h, hrc⟩ := exists_ends (x := fetch Tape.sys 9 (List.replicate hdrbufSize 0)
    (httpScheme ++ [97]) none 0) (s := Tape.interim) (p := fun a => a = .ok) (by decide +kernel)
  obtain rfl : rc = .ok := of_decide_eq_true hrc
  refine ⟨w', h, ?_⟩
  intro hfrom
  obtain ⟨before, last, hchain, hfinal⟩ := hfrom
  obtain ⟨hop, rest, hhops, hans, hrest⟩ := hchain.first
  obtain ⟨hconn, hsent, hf⟩ := Tape.answered hans
  obtain rfl : rest = [] := hrest hf
  obtain ⟨-, rfl⟩ : before = [] ∧ last = hop := List.append_singleton_inj.mp (hhops.trans (List.nil_append _).symm)
  rw [hsent] at hfinal
  have hrem : Tape.asked.kernel.rest = interimReply := by decide +kernel
  have hblock : Final (headerBlock interimReply) := hrem ▸ hfinal
  exact hblock.interim 100 (by decide +kernel) (by decide)

end P4Linux.Hget
