import P4Linux.Hget.Headers

/-!
# What the header walk reads

* `walk_fields` -- the walk goes over the lines of the block's string, cut at its CRLFs;
* `parseHeaders_eq` -- `read_headers` on a buffer, without the buffer: which bytes its results come
  from;
* `parseHeaders_settled` -- the result comes from the block alone where the block says enough (`Settled`);
* `headers_determined_iff` -- **the headers determine the result** if and only if they do say enough, or
  leave no room in the buffer.
-/

namespace P4Linux.Hget

open C Proc

/-! ## 1. Lines -/

/-- The lines of a string. -/
def splitCrlf : List UInt8 → List (List UInt8)
  | 13 :: 10 :: l => [] :: splitCrlf l
  | [] => [[]]
  | b :: l => match splitCrlf l with
    | [] => [[b]]
    | line :: lines => (b :: line) :: lines

theorem splitCrlf_cons {b : UInt8} {l line : List UInt8} {lines : List (List UInt8)}
    (hb : ¬ crlf <+: b :: l) (h : splitCrlf l = line :: lines) :
    splitCrlf (b :: l) = (b :: line) :: lines := by
  rw [splitCrlf, h]
  intro t hb' hl
  refine hb ⟨t, ?_⟩
  rw [hb', hl]
  rfl

theorem splitCrlf_find {l : List UInt8} {i : Nat} (h : find crlf l = some i) :
    splitCrlf l = l.take i :: splitCrlf (l.drop (i + 2)) := by
  induction l generalizing i with
  | nil => cases h
  | cons b l ih =>
    unfold find at h
    split at h
    · rename_i hpre
      cases h
      obtain ⟨t, ht⟩ := List.isPrefixOf_iff_prefix.mp hpre
      rw [← ht]
      rfl
    · rename_i hpre
      obtain ⟨k, hk, rfl⟩ := Option.map_eq_some_iff.mp h
      exact splitCrlf_cons (fun hp => hpre (List.isPrefixOf_iff_prefix.mpr hp)) (ih hk)

theorem splitCrlf_none {l : List UInt8} (h : find crlf l = none) : splitCrlf l = [l] := by
  induction l with
  | nil => rfl
  | cons b l ih =>
    unfold find at h
    split at h
    · cases h
    · rename_i hpre
      exact splitCrlf_cons (fun hp => hpre (List.isPrefixOf_iff_prefix.mpr hp))
        (ih (Option.map_eq_none_iff.mp h))

/-- The header lines of a block: what its string has after the status line. -/
def fieldLines (block : List UInt8) : List (List UInt8) := (splitCrlf (cstr block)).tail

/-- Induction on the rounds: a NUL where the next CRLF is makes the line, and what follows it is the rest
    of the string. -/
theorem walk_fields {n line : Nat} {buf : List UInt8} (r : Resp) (hl : line + 2 ≤ buf.length)
    (hn : buf.length < line + 2 * n) :
    (walk n (some line) buf r).2 = (splitCrlf (cstr (buf.drop (line + 2)))).foldl headerLine r := by
  induction n generalizing line r with
  | zero => omega
  | succ n ih =>
    unfold walk
    dsimp only
    cases hfind : find crlf (cstr (buf.drop (line + 2))) with
    | none =>
      have hnext : strstr buf (line + 2) crlf = none := by rw [strstr, hfind]; rfl
      rw [hnext, splitCrlf_none hfind]
      rfl
    | some k =>
      have hnext : strstr buf (line + 2) crlf = some (k + (line + 2)) := by rw [strstr, hfind]; rfl
      obtain ⟨-, hpre⟩ := strstr_some hnext
      have hcr : buf[k + (line + 2)]? = some 13 := getElem?_of_prefix hpre
      have hlen := hpre.length_le
      rw [List.length_drop, crlf, List.length_cons, List.length_cons, List.length_nil] at hlen
      have hk : k + 2 ≤ (cstr (buf.drop (line + 2))).length := (find_le hfind).resolve_right (by decide)
      -- the line is the string up to the CRLF
      have hline : cstr ((buf.set (k + (line + 2)) 0).drop (line + 2)) =
          (cstr (buf.drop (line + 2))).take k := by
        rw [List.drop_set, if_neg (by omega), Nat.add_sub_cancel, cstr_set (by omega)]
      -- and the walk goes on after it
      have hrest : cstr (buf.drop (k + (line + 2) + 2)) =
          (cstr (buf.drop (line + 2))).drop (k + 2) := by
        rw [← cstr_drop hk, List.drop_drop]
        congr 2
        omega
      rw [hnext, splitCrlf_find hfind]
      dsimp only
      rw [set_restore hcr, ih _ (by omega) (by omega), hline, hrest]
      rfl

/-! ## 2. The parse -/

theorem set_eq_append {a : UInt8} {l : List UInt8} {i : Nat} (h : i < l.length) :
    l.set i a = l.take i ++ a :: l.drop (i + 1) := by
  rw [List.set_eq_take_append_cons_drop, if_pos h]

/-- The walk from the status line on. -/
theorem walk_block (block t : List UInt8) (r : Resp) :
    (walk (block ++ 0 :: t).length (strstr (block ++ 0 :: t) 0 crlf) (block ++ 0 :: t) r).2 =
      (fieldLines block).foldl headerLine r := by
  have hcstr : cstr (block ++ 0 :: t) = cstr block := cstr_append_nul _ _
  have hle : (cstr block).length ≤ block.length := ( cstr_prefix block).length_le
  have hlen : (block ++ 0 :: t).length = block.length + t.length + 1 := by
    rw [List.length_append, List.length_cons, Nat.add_assoc]
  rw [strstr_zero, hcstr]
  unfold fieldLines
  cases hfind : find crlf (cstr block) with
  | none =>
    rw [splitCrlf_none hfind, hlen]
    rfl
  | some k =>
    have hk : k + 2 ≤ (cstr block).length := (find_le hfind).resolve_right (by decide)
    rw [walk_fields r (by omega) (by omega), splitCrlf_find hfind, List.tail_cons,
      cstr_drop (by rw [hcstr]; exact hk), hcstr]

/-- **What `read_headers` makes of a buffer**: `text` is what was read, `i` where its terminator is. -/
theorem parseHeaders_eq {buf text : List UInt8} {have' i : Nat} (hlt : have' < buf.length)
    (htext : buf.take have' = text) (hi : find crlf2 text = some i) :
    parseHeaders buf have' i =
      if httpSlash.isPrefixOf (cstr text) = false then
        (.proto, ⟨0, -1, false, [], i + 4, have' - (i + 4)⟩, buf.set have' 0)
      else match find [32] (cstr text) with
        | none => (.proto, ⟨0, -1, false, [], i + 4, have' - (i + 4)⟩, buf.set have' 0)
        | some k => (.ok, (fieldLines (text.take i)).foldl headerLine
            ⟨atoi (text.drop (k + 1)), -1, false, [], i + 4, have' - (i + 4)⟩, buf.set have' 0) := by
  obtain ⟨t, ht⟩ : ∃ t, buf.set have' 0 = text ++ 0 :: t := ⟨_, htext ▸ set_eq_append hlt⟩
  have hlen : text.length = have' := by
    rw [← htext, List.length_take]
    omega
  have hcstr : cstr (buf.set have' 0) = cstr text := by rw [ht, cstr_append_nul]
  have hend : i + 4 ≤ text.length := (find_le hi).resolve_right (by decide)
  have hcr : (buf.set have' 0)[i]? = some 13 := by
    rw [ht, List.getElem?_append_left (by omega)]
    exact getElem?_of_prefix (find_some hi).1
  unfold parseHeaders
  dsimp only
  unfold startsWith strchr
  rw [strstr_zero, hcstr]
  split
  · rfl
  · cases hfind : find [32] (cstr text) with
    | none => rfl
    | some k =>
      have hk : k + 1 ≤ (cstr text).length := (find_le hfind).resolve_right (by decide)
      have hle : (cstr text).length ≤ text.length := ( cstr_prefix text).length_le
      have hstatus : atoi ((buf.set have' 0).drop (k + 1)) = atoi (text.drop (k + 1)) := by
        rw [ht, List.drop_append_of_le_length (by omega), atoi_append_nul]
      obtain ⟨t', ht'⟩ : ∃ t', (buf.set have' 0).set i 0 = text.take i ++ 0 :: t' := by
        refine ⟨(buf.set have' 0).drop (i + 1), ?_⟩
        rw [set_eq_append (by rw [List.length_set]; omega)]
        congr 1
        rw [ht, List.take_append_of_le_length (by omega)]
      have hwalk := walk_block (text.take i) t'
        ⟨atoi (text.drop (k + 1)), -1, false, [], i + 4, have' - (i + 4)⟩
      rw [← ht'] at hwalk
      dsimp only
      rw [hstatus, walk_buf, set_restore hcr, hwalk]

/-! ## 3. What the block says -/

/-- Status, length, chunked and location. -/
def Resp.head (r : Resp) : Int × Int × Bool × List UInt8 := (r.status, r.length, r.chunked, r.location)

theorem headerLine_head {r r' : Resp} (h : r.head = r'.head) (line : List UInt8) :
    (headerLine r line).head = (headerLine r' line).head := by
  obtain ⟨h1, h2, h3, h4⟩ : r.status = r'.status ∧ r.length = r'.length ∧ r.chunked = r'.chunked ∧
      r.location = r'.location := by
    simpa only [Resp.head, Prod.mk.injEq] using h
  unfold headerLine Resp.head
  dsimp only
  repeat' split
  all_goals simp only [h1, h2, h3, h4]

theorem fields_head {lines : List (List UInt8)} {r r' : Resp} (h : r.head = r'.head) :
    (lines.foldl headerLine r).head = (lines.foldl headerLine r').head := by
  induction lines generalizing r r' with
  | nil => exact h
  | cons line lines ih => exact ih (headerLine_head h line)

/-- The code and the response of a block, from the block alone. -/
def verdict (block : List UInt8) : Exit × Resp :=
  if httpSlash.isPrefixOf (cstr block) = false then (.proto, ⟨0, -1, false, [], 0, 0⟩)
  else match find [32] (cstr block) with
    | none => (.proto, ⟨0, -1, false, [], 0, 0⟩)
    | some k =>
      (.ok, (fieldLines block).foldl headerLine ⟨atoi (block.drop (k + 1)), -1, false, [], 0, 0⟩)

/-- There is a byte that is no white space after the first space, or a NUL before it. -/
def Settled (block : List UInt8) : Bool :=
  match block.dropWhile fun c => decide (c ≠ 32) && decide (c ≠ 0) with
  | [] => false
  | c :: rest => c = 0 || rest.any fun d => !isSpace d

/-- A prefix without CR is not longer than what comes before a CR. -/
theorem isPrefixOf_append_cr {pat l : List UInt8} (h : 13 ∉ pat) (t : List UInt8) :
    pat.isPrefixOf (l ++ 13 :: t) = pat.isPrefixOf l := by
  induction l generalizing pat with
  | nil =>
    cases pat with
    | nil => rfl
    | cons a pat =>
      rw [List.mem_cons, not_or] at h
      show (a == 13 && _) = false
      rw [beq_eq_false_iff_ne.mpr (Ne.symm h.1), Bool.false_and]
  | cons b l ih =>
    cases pat with
    | nil => rfl
    | cons a pat =>
      rw [List.mem_cons, not_or] at h
      show (a == b && pat.isPrefixOf (l ++ 13 :: t)) = (a == b && pat.isPrefixOf l)
      rw [ih h.2]

theorem httpSlash_text (block t : List UInt8) :
    httpSlash.isPrefixOf (cstr (block ++ 13 :: t)) = httpSlash.isPrefixOf (cstr block) := by
  by_cases h0 : 0 ∈ block
  · obtain ⟨u, v, rfl⟩ := List.append_of_mem h0
    rw [List.append_assoc, List.cons_append, cstr_append_nul, cstr_append_nul]
  · have hpos : ∀ b ∈ block, decide (b ≠ 0) = true := fun b hb => decide_eq_true fun e => h0 (e ▸ hb)
    have htext : cstr (block ++ 13 :: t) = block ++ 13 :: cstr t := by
      unfold cstr
      rw [List.takeWhile_append_of_pos hpos]
      rfl
    rw [htext, isPrefixOf_append_cr (by decide), cstr_eq_self h0]

/-- A block up to its first space or NUL. -/
theorem block_cases (block : List UInt8) :
    (Settled block = false ∧ 32 ∉ block ∧ 0 ∉ block) ∨
    ∃ pre c rest, block = pre ++ c :: rest ∧ 32 ∉ pre ∧ 0 ∉ pre ∧
      (c = 0 ∧ Settled block = true ∨ c = 32 ∧ Settled block = rest.any fun d => !isSpace d) := by
  obtain ⟨pre, hpre⟩ : ∃ pre, block.takeWhile (fun c => decide (c ≠ 32) && decide (c ≠ 0)) = pre := ⟨_, rfl⟩
  have hmem : ∀ c ∈ pre, c ≠ 32 ∧ c ≠ 0 := by
    intro c hc
    rw [← hpre] at hc
    have hcond := List.mem_takeWhile_imp hc
    rw [Bool.and_eq_true] at hcond
    exact ⟨of_decide_eq_true hcond.1, of_decide_eq_true hcond.2⟩
  have h32 : 32 ∉ pre := fun hc => (hmem 32 hc).1 rfl
  have h0 : 0 ∉ pre := fun hc => (hmem 0 hc).2 rfl
  have hsplit := List.takeWhile_append_dropWhile (p := fun c : UInt8 => decide (c ≠ 32) && decide (c ≠ 0))
    (l := block)
  unfold Settled
  rw [hpre] at hsplit
  cases hrest : block.dropWhile (fun c => decide (c ≠ 32) && decide (c ≠ 0)) with
  | nil =>
    rw [hrest, List.append_nil] at hsplit
    exact .inl ⟨rfl, hsplit ▸ h32, hsplit ▸ h0⟩
  | cons c rest =>
    have hcond := List.dropWhile_get_zero_not (p := fun c : UInt8 => decide (c ≠ 32) && decide (c ≠ 0)) block
      (by rw [hrest]; exact Nat.succ_pos _)
    simp only [hrest, List.get_eq_getElem, List.getElem_cons_zero, Bool.and_eq_true, decide_eq_true_eq,
      not_and_or, not_ne_iff] at hcond
    rw [hrest] at hsplit
    refine .inr ⟨pre, c, rest, hsplit.symm, h32, h0, ?_⟩
    rcases hcond with rfl | rfl
    · exact .inr ⟨rfl, Bool.false_or _⟩
    · exact .inl ⟨rfl, Bool.true_or _⟩

/-- The first space of a block. -/
theorem find_space {pre : List UInt8} (h32 : 32 ∉ pre) (h0 : 0 ∉ pre) (t : List UInt8) :
    find [32] (cstr (pre ++ 32 :: t)) = some pre.length ∧ (pre ++ 32 :: t).drop (pre.length + 1) = t := by
  have hpos : ∀ b ∈ pre, decide (b ≠ 0) = true := fun b hb => decide_eq_true fun e => h0 (e ▸ hb)
  have hcstr : cstr (pre ++ 32 :: t) = pre ++ 32 :: cstr t := by
    unfold cstr
    rw [List.takeWhile_append_of_pos hpos]
    rfl
  constructor
  · rw [hcstr, find_char h32]
  · rw [← List.drop_drop, List.drop_left' rfl]
    rfl

/-- **A settled block** says where its status is, and what it is. -/
theorem settled_text {block : List UInt8} (h : Settled block = true) (t : List UInt8) :
    find [32] (cstr (block ++ 13 :: t)) = find [32] (cstr block) ∧
      ∀ k, find [32] (cstr block) = some k →
        atoi ((block ++ 13 :: t).drop (k + 1)) = atoi (block.drop (k + 1)) := by
  rcases block_cases block with ⟨hs, -⟩ | ⟨pre, c, rest, hblock, h32, h0, ⟨rfl, hset⟩ | ⟨rfl, hany⟩⟩
  · rw [h] at hs
    cases hs
  · -- a NUL comes first, and there is no space in the string
    have hcstr : ∀ u, cstr (pre ++ 0 :: u) = pre := by
      intro u
      rw [cstr_append_nul, cstr_eq_self h0]
    rw [hblock, List.append_assoc, List.cons_append, hcstr, hcstr, find_char_none h32]
    exact ⟨rfl, fun k hk => by cases hk⟩
  · -- the first space: the status is behind it, and ends before the CR
    rw [h] at hany
    obtain ⟨d, hd, hspace⟩ := List.any_eq_true.mp hany.symm
    rw [hblock, List.append_assoc, List.cons_append, (find_space h32 h0 _).1, (find_space h32 h0 _).1]
    refine ⟨rfl, fun k hk => ?_⟩
    obtain rfl := Option.some.inj hk
    rw [(find_space h32 h0 _).2, (find_space h32 h0 _).2]
    exact strtol_append_cr ⟨d, hd, by simpa using hspace⟩ t

/-- What the parse makes of a buffer whose block is settled. -/
theorem parseHeaders_settled {buf block t : List UInt8} {have' : Nat} (hlt : have' < buf.length)
    (htext : buf.take have' = block ++ crlf2 ++ t)
    (hi : find crlf2 (block ++ crlf2) = some block.length)
    (h : httpSlash.isPrefixOf (cstr block) = true → Settled block = true) :
    ∃ r, parseHeaders buf have' block.length = ((verdict block).1, r, buf.set have' 0) ∧
      ((verdict block).1 = .ok → r.head = (verdict block).2.head) := by
  have hcons : block ++ crlf2 ++ t = block ++ 13 :: (10 :: 13 :: 10 :: t) := by
    rw [List.append_assoc]
    rfl
  have htake : (block ++ crlf2 ++ t).take block.length = block := by
    rw [List.append_assoc, List.take_left' rfl]
  rw [parseHeaders_eq hlt htext (find_append (by decide) hi t), htake, hcons, httpSlash_text]
  unfold verdict
  cases hpre : httpSlash.isPrefixOf (cstr block) with
  | false => exact ⟨_, rfl, fun he => by cases he⟩
  | true =>
    obtain ⟨hfind, hstatus⟩ := settled_text (h hpre) (10 :: 13 :: 10 :: t)
    rw [if_neg (by decide), if_neg (by decide), hfind]
    cases hk : find [32] (cstr block) with
    | none => exact ⟨_, rfl, fun he => by cases he⟩
    | some k =>
      refine ⟨_, rfl, fun _ => fields_head ?_⟩
      rw [hstatus k hk]
      rfl

/-! ## 4. The reads -/

/-- A byte stream cut into reads in any way, and then its end. -/
structure Segments {σ : Type} (p : Peer σ) (rem : σ → List UInt8) : Prop where
  read : ∀ s len, 0 < len → ∃ data s', Ends (p.read len) s (some data) s' ∧ data.length ≤ len ∧
    rem s = data ++ rem s' ∧ (data = [] → rem s = [])

section

variable {σ : Type} {p : Peer σ} {rem : σ → List UInt8} {block t : List UInt8}

/-- What the loop has when it stops: the terminator of the block, and what came with it. -/
structure Loaded (block : List UInt8) (stream : List UInt8) (buf : List UInt8) (have' : Nat) : Prop where
  length : buf.length = hdrbufSize
  room : have' < hdrbufSize
  prefix_eq : buf.take have' <+: stream
  block_le : block.length + 4 ≤ have'

theorem Loaded.memmem {stream buf : List UInt8} {have' : Nat} (h : Loaded block stream buf have')
    (hstream : stream = block ++ crlf2 ++ t) (hi : find crlf2 (block ++ crlf2) = some block.length) :
    memmem buf have' crlf2 = some block.length ∧ ∃ u, buf.take have' = block ++ crlf2 ++ u := by
  obtain ⟨hlen, hroom, hpre, hle⟩ := h
  have hl : (buf.take have').length = have' := by
    rw [List.length_take, hlen]
    omega
  obtain ⟨u, hu⟩ : block ++ crlf2 <+: buf.take have' := by
    refine List.prefix_of_prefix_length_le ⟨t, hstream.symm⟩ hpre ?_
    rw [hl, List.length_append]
    exact hle
  refine ⟨?_, u, hu.symm⟩
  unfold C.memmem
  rw [← hu]
  exact find_append (by decide) hi u

/-- Induction on the rounds: as long as the terminator is missing there is something to read. -/
theorem readLoop_segments (hp : Segments p rem) (hi : find crlf2 (block ++ crlf2) = some block.length)
    (hroom : block.length + 4 < hdrbufSize) {stream : List UInt8} (hstream : stream = block ++ crlf2 ++ t)
    {n have₀ : Nat} {buf : List UInt8} {s : σ} (hbuf : buf.length = hdrbufSize) (hle : have₀ < hdrbufSize)
    (hsplit : buf.take have₀ ++ rem s = stream) (hn : hdrbufSize < n + have₀) :
    ∃ buf' have' seen s', Ends (readLoop p n have₀ buf) s (some (buf', have', seen)) s' ∧
      Loaded block stream buf' have' ∧ (∀ i, seen = some i → i = block.length) := by
  induction n generalizing have₀ buf s with
  | zero => omega
  | succ n ih =>
    have hl : (buf.take have₀).length = have₀ := by
      rw [List.length_take, hbuf]
      omega
    unfold readLoop
    by_cases hmore : have₀ < hdrbufSize - 1
    · rw [if_pos hmore]
      cases hm : memmem buf have₀ crlf2 with
      | some i =>
        have hfirst : find crlf2 stream = some i := by
          rw [← hsplit]
          exact find_append (by decide) hm _
        have hfirst' : find crlf2 stream = some block.length := by
          rw [hstream]
          exact find_append (by decide) hi t
        obtain rfl : i = block.length := Option.some.inj (hfirst.symm.trans hfirst')
        have hend : block.length + 4 ≤ (buf.take have₀).length := (find_le hm).resolve_right (by decide)
        exact ⟨buf, have₀, _, s, ends_pure.mpr ⟨rfl, rfl⟩,
          ⟨hbuf, hle, ⟨rem s, hsplit⟩, by omega⟩, fun j hj => (Option.some.inj hj).symm⟩
      | none =>
        -- the block's terminator is not among the bytes read so far
        have hshort : have₀ < block.length + 4 := by
          by_contra hge
          have hload : Loaded block stream buf have₀ := ⟨hbuf, hle, ⟨rem s, hsplit⟩, by omega⟩
          rw [(hload.memmem hstream hi).1] at hm
          cases hm
        have hrem : rem s ≠ [] := by
          intro hnil
          have hlen := congrArg List.length hsplit
          rw [hnil, List.append_nil, hl, hstream, List.length_append, List.length_append, crlf2,
            List.length_cons, List.length_cons, List.length_cons, List.length_cons, List.length_nil] at hlen
          omega
        obtain ⟨data, s', hr, hlen, hdata, hend⟩ := hp.read s (hdrbufSize - 1 - have₀) (by omega)
        obtain ⟨b, data, rfl⟩ := List.exists_cons_of_ne_nil fun h => hrem (hend h)
        have hfit : have₀ + (b :: data).length ≤ buf.length := by
          rw [hbuf]
          omega
        have hpos : 0 < (b :: data).length := Nat.succ_pos _
        have hsplit' : (store buf have₀ (b :: data)).take (have₀ + (b :: data).length) ++ rem s' = stream := by
          rw [take_store hfit, List.append_assoc, ← hdata, hsplit]
        obtain ⟨buf', have', seen, s'', hloop, hload, hseen⟩ :=
          ih (by rw [length_store hfit, hbuf]) (by omega) hsplit' (by omega)
        exact ⟨buf', have', seen, s'', hr.bind hloop, hload, hseen⟩
    · rw [if_neg hmore]
      exact ⟨buf, have₀, none, s, ends_pure.mpr ⟨rfl, rfl⟩, ⟨hbuf, hle, ⟨rem s, hsplit⟩, by omega⟩,
        fun j hj => by cases hj⟩

/-- `read_headers` comes to its end, and parses a buffer that starts with the block. -/
theorem readHeaders_segments (hp : Segments p rem) (hi : find crlf2 (block ++ crlf2) = some block.length)
    (hroom : block.length + 4 < hdrbufSize) {n : Nat} {buf : List UInt8} {s : σ}
    (hstream : rem s = block ++ crlf2 ++ t) (hbuf : buf.length = hdrbufSize) (hn : hdrbufSize < n) :
    ∃ buf' have' s', Ends (readHeaders p n buf) s (parseHeaders buf' have' block.length) s' ∧
      Loaded block (rem s) buf' have' := by
  obtain ⟨buf', have', seen, s', hloop, hload, hseen⟩ : ∃ buf' have' seen s',
      Ends (readLoop p n 0 buf) s (some (buf', have', seen)) s' ∧ Loaded block (rem s) buf' have' ∧
      (∀ i, seen = some i → i = block.length) :=
    readLoop_segments hp hi hroom hstream hbuf (by decide) rfl hn
  refine ⟨buf', have', s', hloop.bind ?_, hload⟩
  have hmem : seen.or (memmem buf' have' crlf2) = some block.length := by
    cases seen with
    | none => exact (hload.memmem hstream hi).1
    | some i => rw [hseen i rfl]; rfl
  dsimp only
  rw [hmem]
  exact ends_pure.mpr ⟨rfl, rfl⟩

end

/-! ## 5. Two streams with one header block -/

/-- Two streams that begin with the block, however they are cut, are read alike. -/
def Determined (block : List UInt8) : Prop :=
  ∀ (σ₁ σ₂ : Type) (p₁ : Peer σ₁) (p₂ : Peer σ₂) (rem₁ : σ₁ → List UInt8) (rem₂ : σ₂ → List UInt8),
    Segments p₁ rem₁ → Segments p₂ rem₂ → ∀ n₁ n₂ buf₁ buf₂ s₁ s₂ t₁ t₂,
    hdrbufSize < n₁ → hdrbufSize < n₂ → buf₁.length = hdrbufSize → buf₂.length = hdrbufSize →
    rem₁ s₁ = block ++ crlf2 ++ t₁ → rem₂ s₂ = block ++ crlf2 ++ t₂ →
    ∃ e r₁ r₂ buf₁' buf₂' s₁' s₂', Ends (readHeaders p₁ n₁ buf₁) s₁ (e, r₁, buf₁') s₁' ∧
      Ends (readHeaders p₂ n₂ buf₂) s₂ (e, r₂, buf₂') s₂' ∧ (e = .ok → r₁.head = r₂.head)

theorem determined_of_settled {block : List UInt8} (hi : find crlf2 (block ++ crlf2) = some block.length)
    (hroom : block.length + 4 < hdrbufSize)
    (h : httpSlash.isPrefixOf (cstr block) = true → Settled block = true) : Determined block := by
  intro σ₁ σ₂ p₁ p₂ rem₁ rem₂ hp₁ hp₂ n₁ n₂ buf₁ buf₂ s₁ s₂ t₁ t₂ hn₁ hn₂ hb₁ hb₂ hs₁ hs₂
  obtain ⟨buf₁', have₁, s₁', hr₁, hl₁⟩ := readHeaders_segments hp₁ hi hroom hs₁ hb₁ hn₁
  obtain ⟨buf₂', have₂, s₂', hr₂, hl₂⟩ := readHeaders_segments hp₂ hi hroom hs₂ hb₂ hn₂
  obtain ⟨-, u₁, hu₁⟩ := hl₁.memmem hs₁ hi
  obtain ⟨-, u₂, hu₂⟩ := hl₂.memmem hs₂ hi
  obtain ⟨r₁, hparse₁, hhead₁⟩ := parseHeaders_settled (by rw [hl₁.length]; exact hl₁.room) hu₁ hi h
  obtain ⟨r₂, hparse₂, hhead₂⟩ := parseHeaders_settled (by rw [hl₂.length]; exact hl₂.room) hu₂ hi h
  rw [hparse₁] at hr₁
  rw [hparse₂] at hr₂
  exact ⟨_, r₁, r₂, _, _, s₁', s₂', hr₁, hr₂, fun he => (hhead₁ he).trans (hhead₂ he).symm⟩

/-- The parse sees what was read, and no more of the buffer. -/
theorem parseHeaders_text {text buf₁ buf₂ : List UInt8} {have' i : Nat} (hi : find crlf2 text = some i)
    (hlt₁ : have' < buf₁.length) (htext₁ : buf₁.take have' = text) (hlt₂ : have' < buf₂.length)
    (htext₂ : buf₂.take have' = text) :
    ∃ e r, parseHeaders buf₁ have' i = (e, r, buf₁.set have' 0) ∧
      parseHeaders buf₂ have' i = (e, r, buf₂.set have' 0) := by
  rw [parseHeaders_eq hlt₁ htext₁ hi, parseHeaders_eq hlt₂ htext₂ hi]
  split
  · exact ⟨_, _, rfl, rfl⟩
  · cases find [32] (cstr text) with
    | none => exact ⟨_, _, rfl, rfl⟩
    | some k => exact ⟨_, _, rfl, rfl⟩

/-- A block that fills the buffer leaves no room for a byte of the body. -/
theorem determined_of_full {block : List UInt8} (hi : find crlf2 (block ++ crlf2) = some block.length)
    (hfull : block.length + 5 = hdrbufSize) : Determined block := by
  intro σ₁ σ₂ p₁ p₂ rem₁ rem₂ hp₁ hp₂ n₁ n₂ buf₁ buf₂ s₁ s₂ t₁ t₂ hn₁ hn₂ hb₁ hb₂ hs₁ hs₂
  obtain ⟨buf₁', have₁, s₁', hr₁, hl₁⟩ := readHeaders_segments hp₁ hi (by omega) hs₁ hb₁ hn₁
  obtain ⟨buf₂', have₂, s₂', hr₂, hl₂⟩ := readHeaders_segments hp₂ hi (by omega) hs₂ hb₂ hn₂
  have hall : ∀ {stream t buf : List UInt8} {have' : Nat}, stream = block ++ crlf2 ++ t →
      Loaded block stream buf have' →
      have' = block.length + 4 ∧ have' < buf.length ∧ buf.take have' = block ++ crlf2 := by
    intro stream t buf have' hstream hl
    obtain ⟨-, u, hu⟩ := hl.memmem hstream hi
    obtain ⟨hlen, hlt, -, hle⟩ := hl
    obtain rfl : have' = block.length + 4 := by omega
    have hu' := congrArg List.length hu
    rw [List.length_take, List.length_append, List.length_append, hlen, crlf2, List.length_cons,
      List.length_cons, List.length_cons, List.length_cons, List.length_nil] at hu'
    obtain rfl : u = [] := List.length_eq_zero_iff.mp (by omega)
    rw [List.append_nil] at hu
    exact ⟨rfl, by omega, hu⟩
  obtain ⟨rfl, hlt₁, htext₁⟩ := hall hs₁ hl₁
  obtain ⟨rfl, hlt₂, htext₂⟩ := hall hs₂ hl₂
  obtain ⟨e, r, hparse₁, hparse₂⟩ := parseHeaders_text hi hlt₁ htext₁ hlt₂ htext₂
  rw [hparse₁] at hr₁
  rw [hparse₂] at hr₂
  exact ⟨e, r, r, _, _, s₁', s₂', hr₁, hr₂, fun _ => rfl⟩

/-- A connection that hands on all it has. -/
def whole : Peer (List UInt8) where
  read len := Proc.step fun s => (some (s.take len), s.drop len)
  write _ := Proc.step fun s => (true, s)

theorem whole_segments : Segments whole id where
  read s len hlen := by
    refine ⟨_, _, ends_step.mpr rfl, List.length_take_le _ _, (List.take_append_drop len s).symm, ?_⟩
    intro h
    exact (List.take_eq_nil_iff.mp h).resolve_left (by omega)

theorem readHeaders_whole {block t : List UInt8} (hi : find crlf2 (block ++ crlf2) = some block.length)
    (hroom : (block ++ crlf2 ++ t).length < hdrbufSize) {n : Nat} {buf : List UInt8}
    (hbuf : buf.length = hdrbufSize) :
    ∃ buf', Ends (readHeaders whole (n + 2) buf) (block ++ crlf2 ++ t)
        (parseHeaders buf' (block ++ crlf2 ++ t).length block.length) [] ∧
      (block ++ crlf2 ++ t).length < buf'.length ∧
      buf'.take (block ++ crlf2 ++ t).length = block ++ crlf2 ++ t := by
  obtain ⟨stream, hstream⟩ : ∃ stream, stream = block ++ crlf2 ++ t := ⟨_, rfl⟩
  have hfirst : find crlf2 stream = some block.length := by
    rw [hstream]
    exact find_append (by decide) hi t
  rw [← hstream] at hroom ⊢
  have hfit : 0 + stream.length ≤ buf.length := by
    rw [hbuf]
    omega
  have htake := take_store hfit
  rw [List.take_zero, List.nil_append, Nat.zero_add] at htake
  have hread : Ends (whole.read (hdrbufSize - 1 - 0)) stream (some stream) [] := by
    refine ends_step.mpr (Prod.ext (congrArg some (List.take_of_length_le ?_)) (List.drop_of_length_le ?_))
    · omega
    · omega
  obtain ⟨b, rest, hcons⟩ : ∃ b rest, stream = b :: rest := by
    refine List.exists_cons_of_ne_nil fun hnil => ?_
    rw [hnil] at hfirst
    cases hfirst
  have hmem : memmem (store buf 0 stream) stream.length crlf2 = some block.length := by
    unfold memmem
    rw [htake, hfirst]
  have hloop : ∃ seen, Ends (readLoop whole (n + 1) stream.length (store buf 0 stream)) []
      (some (store buf 0 stream, stream.length, seen)) [] ∧
      seen.or (memmem (store buf 0 stream) stream.length crlf2) = some block.length := by
    unfold readLoop
    rw [hmem]
    split
    · exact ⟨_, ends_pure.mpr ⟨rfl, rfl⟩, rfl⟩
    · exact ⟨none, ends_pure.mpr ⟨rfl, rfl⟩, rfl⟩
  obtain ⟨seen, hloop, hseen⟩ := hloop
  refine ⟨store buf 0 stream, ?_, ?_, htake⟩
  · unfold readHeaders
    have hrun : Ends (readLoop whole (n + 2) 0 buf) stream
        (some (store buf 0 stream, stream.length, seen)) [] := by
      unfold readLoop
      rw [if_pos (by decide), show memmem buf 0 crlf2 = none from rfl]
      refine hread.bind ?_
      rw [hcons] at hloop ⊢
      dsimp only
      rw [Nat.zero_add]
      exact hloop
    refine hrun.bind ?_
    dsimp only
    rw [hseen]
    exact ends_pure.mpr ⟨rfl, rfl⟩
  · rw [length_store hfit, hbuf]
    exact hroom

@[simp] theorem headerLine_status (r : Resp) (line : List UInt8) :
    (headerLine r line).status = r.status := by
  unfold headerLine
  dsimp only
  repeat' split
  all_goals rfl

theorem fields_status (lines : List (List UInt8)) (r : Resp) :
    (lines.foldl headerLine r).status = r.status := by
  induction lines generalizing r with
  | nil => rfl
  | cons line lines ih => exact (ih _).trans (headerLine_status r line)

/-- The result of a run on the whole stream. -/
theorem readHeaders_whole_eq {block t : List UInt8} (hi : find crlf2 (block ++ crlf2) = some block.length)
    (hroom : (block ++ crlf2 ++ t).length < hdrbufSize)
    (hpre : httpSlash.isPrefixOf (cstr block) = true) {e : Exit} {r : Resp} {buf buf' s' : List UInt8} {n : Nat}
    (hbuf : buf.length = hdrbufSize)
    (h : Ends (readHeaders whole (n + 2) buf) (block ++ crlf2 ++ t) (e, r, buf') s') :
    match find [32] (cstr (block ++ crlf2 ++ t)) with
    | none => e = .proto
    | some k => e = .ok ∧ r.status = atoi ((block ++ crlf2 ++ t).drop (k + 1)) := by
  obtain ⟨buf₁, hrun, hlt, htext⟩ := readHeaders_whole hi hroom hbuf
  have hcons : block ++ crlf2 ++ t = block ++ 13 :: (10 :: 13 :: 10 :: t) := by
    rw [List.append_assoc]
    rfl
  have hpre' : httpSlash.isPrefixOf (cstr (block ++ crlf2 ++ t)) = true := by
    rw [hcons, httpSlash_text, hpre]
  obtain ⟨heq, -⟩ := h.unique hrun
  rw [parseHeaders_eq hlt htext (find_append (by decide) hi t), if_neg (by rw [hpre']; decide)] at heq
  cases hk : find [32] (cstr (block ++ crlf2 ++ t)) with
  | none =>
    rw [hk] at heq
    cases heq
    rfl
  | some k =>
    rw [hk] at heq
    cases heq
    exact ⟨rfl, fields_status _ _⟩

/-- A block that is not settled takes its status from the body. -/
theorem not_determined {block : List UInt8} (hi : find crlf2 (block ++ crlf2) = some block.length)
    (hroom : block.length + 5 < hdrbufSize) (hpre : httpSlash.isPrefixOf (cstr block) = true)
    (hs : Settled block = false) : ¬ Determined block := by
  intro hdet
  have hlen : ∀ t : List UInt8, t.length ≤ 1 → (block ++ crlf2 ++ t).length < hdrbufSize := by
    intro t ht
    rw [List.length_append, List.length_append, crlf2, List.length_cons, List.length_cons,
      List.length_cons, List.length_cons, List.length_nil]
    omega
  -- the same block, with nothing behind it and with one byte
  have hruns : ∀ c : UInt8, ∃ (e : Exit) (r₁ r₂ : Resp),
      (match find [32] (cstr (block ++ crlf2 ++ [])) with
        | none => e = .proto
        | some k => e = .ok ∧ r₁.status = atoi ((block ++ crlf2 ++ []).drop (k + 1))) ∧
      (match find [32] (cstr (block ++ crlf2 ++ [c])) with
        | none => e = .proto
        | some k => e = .ok ∧ r₂.status = atoi ((block ++ crlf2 ++ [c]).drop (k + 1))) ∧
      (e = .ok → r₁.head = r₂.head) := by
    intro c
    obtain ⟨e, r₁, r₂, _, _, _, _, h₁, h₂, hhead⟩ := hdet _ _ whole whole id id whole_segments whole_segments
      (hdrbufSize + 2) (hdrbufSize + 2) (List.replicate hdrbufSize 0) (List.replicate hdrbufSize 0)
      (block ++ crlf2 ++ []) (block ++ crlf2 ++ [c]) [] [c] (by omega) (by omega)
      List.length_replicate List.length_replicate rfl rfl
    exact ⟨e, r₁, r₂, readHeaders_whole_eq hi (hlen _ (by simp)) hpre List.length_replicate h₁,
      readHeaders_whole_eq hi (hlen _ (by simp)) hpre List.length_replicate h₂, hhead⟩
  rcases block_cases block with ⟨-, h32, h0⟩ | ⟨pre, c, rest, hblock, h32, h0, ⟨rfl, hset⟩ | ⟨rfl, hany⟩⟩
  · -- no space: one in the body makes a status line
    obtain ⟨e, r₁, r₂, h₁, h₂, -⟩ := hruns 32
    have h32' : 32 ∉ block ++ crlf2 := by
      rw [List.mem_append, not_or]
      exact ⟨h32, by decide⟩
    have h0' : 0 ∉ block ++ crlf2 := by
      rw [List.mem_append, not_or]
      exact ⟨h0, by decide⟩
    rw [List.append_nil, cstr_eq_self h0', find_char_none h32'] at h₁
    rw [(find_space h32' h0' []).1] at h₂
    obtain rfl : e = .proto := h₁
    cases h₂.1
  · rw [hs] at hset
    cases hset
  · -- nothing but white space after the space: a digit in the body is the status
    rw [hs] at hany
    have hcr : ∀ d ∈ crlf2, isSpace d = true := List.all_eq_true.mp rfl
    have hspace : ∀ d ∈ rest ++ crlf2, isSpace d = true := by
      intro d hd
      rcases List.mem_append.mp hd with hd | hd
      · simpa using List.any_eq_false.mp hany.symm d hd
      · exact hcr d hd
    have hstatus : ∀ t, ∃ k, find [32] (cstr (block ++ crlf2 ++ t)) = some k ∧
        atoi ((block ++ crlf2 ++ t).drop (k + 1)) = atoi t := by
      intro t
      refine ⟨pre.length, ?_, ?_⟩
      · rw [hblock, List.append_assoc, List.append_assoc, List.cons_append, (find_space h32 h0 _).1]
      · rw [hblock, List.append_assoc, List.append_assoc, List.cons_append, (find_space h32 h0 _).2,
          ← List.append_assoc, atoi_spaces hspace]
    obtain ⟨e, r₁, r₂, h₁, h₂, hhead⟩ := hruns 55
    obtain ⟨k₁, hk₁, ha₁⟩ := hstatus []
    obtain ⟨k₂, hk₂, ha₂⟩ := hstatus [55]
    rw [hk₁] at h₁
    rw [hk₂] at h₂
    obtain ⟨rfl, hr₁⟩ := h₁
    have heq : r₁.status = r₂.status := congrArg Prod.fst (hhead rfl)
    rw [hr₁, h₂.2, ha₁, ha₂] at heq
    exact absurd heq (by decide)

/-- **The headers determine what is read from them** if and only if the block fills the buffer, is no HTTP
    response, or is settled. -/
theorem headers_determined_iff {block : List UInt8}
    (hi : find crlf2 (block ++ crlf2) = some block.length) (hroom : block.length + 4 < hdrbufSize) :
    Determined block ↔ block.length + 5 = hdrbufSize ∨
      (httpSlash.isPrefixOf (cstr block) = true → Settled block = true) := by
  constructor
  · intro hdet
    by_contra hno
    rw [not_or, Classical.not_imp, Bool.not_eq_true] at hno
    exact not_determined hi (by omega) hno.2.1 hno.2.2 hdet
  · rintro (hfull | hset)
    · exact determined_of_full hi hfull
    · exact determined_of_settled hi hroom hset

/-- `HTTP/1.1 200 OK CRLF Content-Length: 2`. -/
theorem headers_determined_ok : Determined [72, 84, 84, 80, 47, 49, 46, 49, 32, 50, 48, 48, 32, 79, 75, 13, 10,
    67, 111, 110, 116, 101, 110, 116, 45, 76, 101, 110, 103, 116, 104, 58, 32, 50] :=
  (headers_determined_iff (by decide) (by decide)).mpr (.inr fun _ => by decide)

/-- `HTTP/1.1`, an empty line, and a body that is read as the status. -/
theorem not_headers_determined : ¬ Determined [72, 84, 84, 80, 47, 49, 46, 49] :=
  not_determined (by decide) (by decide) (by decide) (by decide)

end P4Linux.Hget
