import P4Linux.Hget.Request

/-!
# The grammar of URLs

* `Splits`, `urlParse_iff` -- what `url_parse` accepts, and how it takes it apart;
* `Authority`, `IsUrl` -- what it should accept;
* `Malformed`, `splits_of_malformed` -- the authorities that pass the checks of lengths and brackets and are none;
* `grammar_iff` -- **`url_parse` accepts exactly its grammar** on the strings that are not one of two
  kinds: a URL whose authority a question mark or a hash ends, and a string with a malformed authority.
-/

namespace P4Linux.Hget

open C

/-! ## 1. What `url_parse` accepts -/

def schemeOf (tls : Bool) : List UInt8 := if tls then httpsScheme else httpScheme

/-- `"443"` or `"80"`. -/
def defaultPort (tls : Bool) : List UInt8 := if tls then [52, 52, 51] else [56, 48]

/-- An authority as `url_parse` takes it apart, into host and port; `dflt` is the scheme's port. -/
inductive Splits (dflt : List UInt8) : List UInt8 → List UInt8 → List UInt8 → Prop where
  | name {host : List UInt8} (hc : 58 ∉ host) (hb : host.head? ≠ some 91) : Splits dflt host host dflt
  | namePort {host port : List UInt8} (hc : 58 ∉ host) (hb : host.head? ≠ some 91)
      (hp : port.length < portbuf) : Splits dflt (host ++ 58 :: port) host port
  | literal {lit junk : List UInt8} (hl : 93 ∉ lit) (hj : junk.head? ≠ some 58) :
      Splits dflt (91 :: (lit ++ 93 :: junk)) lit dflt
  | literalPort {lit port : List UInt8} (hl : 93 ∉ lit) (hp : port.length < portbuf) :
      Splits dflt (91 :: (lit ++ 93 :: 58 :: port)) lit port

theorem drop_cons_left (a t : List UInt8) (b : UInt8) : (a ++ b :: t).drop (a.length + 1) = t := by
  rw [← List.drop_drop, List.drop_left' rfl]
  rfl

/-- The bracket of a literal is found. -/
theorem find_bracket {lit : List UInt8} (hl : 93 ∉ lit) (t : List UInt8) :
    find [93] (91 :: (lit ++ 93 :: t)) = some (lit.length + 1) := by
  have hb : 93 ∉ 91 :: lit := by
    rw [List.mem_cons, not_or]
    exact ⟨by decide, hl⟩
  exact find_char hb t

/-- What `url_parse` reads around that bracket. -/
theorem bracket_parts (lit junk : List UInt8) :
    ((91 :: (lit ++ 93 :: junk)).take (lit.length + 1)).drop 1 = lit ∧
      (91 :: (lit ++ 93 :: junk))[lit.length + 1 + 1]? = junk.head? ∧
      (91 :: (lit ++ 93 :: junk)).drop (lit.length + 1 + 2) = junk.tail := by
  refine ⟨?_, ?_, ?_⟩
  · rw [List.take_succ_cons, List.drop_one, List.tail_cons, List.take_left' rfl]
  · rw [List.getElem?_cons_succ, List.getElem?_append_right (by omega), Nat.add_sub_cancel_left,
      List.getElem?_cons_succ, List.head?_eq_getElem?]
  · rw [show lit.length + 1 + 2 = lit.length + 1 + 1 + 1 from rfl, List.drop_succ_cons, ← List.drop_drop,
      List.drop_left' rfl, List.drop_succ_cons, List.drop_one]

theorem urlHost_of_splits {dflt a host port : List UInt8} (h : Splits dflt a host port) (tls : Bool)
    (path : List UInt8) (hlen : ¬ (a.length = 0 ∨ hostbuf ≤ a.length)) :
    urlHost tls dflt path a = .ok ⟨tls, host, port, path⟩ := by
  unfold urlHost
  rw [if_neg hlen]
  cases h with
  | name hc hb => rw [if_pos hb, find_char_none hc]
  | namePort hc hb hp =>
    have hhead : (host ++ 58 :: port).head? ≠ some 91 := by
      cases host with
      | nil => exact fun e => by cases e
      | cons b host => exact hb
    rw [if_pos hhead, find_char hc]
    dsimp only
    rw [List.take_left' rfl, drop_cons_left, if_neg (by omega)]
  | @literal lit junk hl hj =>
    obtain ⟨hlit, hnext, -⟩ := bracket_parts host junk
    rw [if_neg (fun e => e rfl), find_bracket hl]
    dsimp only
    rw [hlit, hnext, if_neg hj]
  | @literalPort lit port hl hp =>
    obtain ⟨hlit, hnext, hport⟩ := bracket_parts host (58 :: port)
    rw [if_neg (fun e => e rfl), find_bracket hl]
    dsimp only
    rw [hlit, hnext, hport, List.head?_cons, if_pos rfl, List.tail_cons, if_neg (by omega)]

theorem splits_of_urlHost {tls : Bool} {dflt path a : List UInt8} {u : Url}
    (h : urlHost tls dflt path a = .ok u) :
    ¬ (a.length = 0 ∨ hostbuf ≤ a.length) ∧ u.tls = tls ∧ u.path = path ∧ Splits dflt a u.host u.port := by
  unfold urlHost at h
  split at h
  · cases h
  · rename_i hlen
    refine ⟨hlen, ?_⟩
    split at h
    · rename_i hb
      rcases find_char_cases 58 a with ⟨hno, hnone⟩ | ⟨host, port, rfl, hc, hfind⟩
      · rw [hnone] at h
        cases h
        exact ⟨rfl, rfl, .name hno hb⟩
      · have hhead : host.head? ≠ some 91 := by
          cases host with
          | nil => exact fun e => by cases e
          | cons b host => exact hb
        rw [hfind] at h
        dsimp only at h
        rw [List.take_left' rfl, drop_cons_left] at h
        split at h
        · cases h
        · rename_i hp
          cases h
          exact ⟨rfl, rfl, .namePort hc hhead (Nat.not_le.mp hp)⟩
    · rename_i hb
      obtain ⟨b, t, rfl⟩ : ∃ b t, a = b :: t := List.exists_cons_of_length_pos (by omega)
      obtain rfl : b = 91 := Option.some.inj (not_not.mp hb)
      rcases find_char_cases 93 t with ⟨hno, -⟩ | ⟨lit, junk, rfl, hl, -⟩
      · rw [find_char_none (by rw [List.mem_cons, not_or]; exact ⟨by decide, hno⟩)] at h
        cases h
      · obtain ⟨hlit, hnext, hport⟩ := bracket_parts lit junk
        rw [find_bracket hl] at h
        dsimp only at h
        rw [hlit, hnext, hport] at h
        by_cases hj : junk.head? = some 58
        · obtain ⟨port, rfl⟩ : ∃ port, junk = 58 :: port := ⟨junk.tail, (List.cons_head?_tail hj).symm⟩
          rw [if_pos hj, List.tail_cons] at h
          split at h
          · cases h
          · rename_i hp
            cases h
            exact ⟨rfl, rfl, .literalPort hl (Nat.not_le.mp hp)⟩
        · rw [if_neg hj] at h
          cases h
          exact ⟨rfl, rfl, .literal hl hj⟩

/-- The authority's part of `url_parse`. -/
theorem urlHost_iff {tls : Bool} {dflt path a : List UInt8} {u : Url} :
    urlHost tls dflt path a = .ok u ↔ (a ≠ [] ∧ a.length < hostbuf) ∧ u.tls = tls ∧ u.path = path ∧
      Splits dflt a u.host u.port := by
  have hlen : ¬ (a.length = 0 ∨ hostbuf ≤ a.length) ↔ a ≠ [] ∧ a.length < hostbuf := by
    rw [not_or, Nat.not_le, List.length_eq_zero_iff]
  constructor
  · intro h
    obtain ⟨hl, h⟩ := splits_of_urlHost h
    exact ⟨hlen.mp hl, h⟩
  · rintro ⟨hl, rfl, rfl, h⟩
    exact urlHost_of_splits h u.tls u.path (hlen.mpr hl)

/-- The bytes before the first slash, and what begins there. -/
theorem urlRest_iff {tls : Bool} {dflt t : List UInt8} {u : Url} :
    urlRest tls dflt t = .ok u ↔
      (targetOf (schemeOf tls ++ t)).length < urlbuf ∧
        urlHost tls dflt (targetOf (schemeOf tls ++ t)) (authorityOf (schemeOf tls ++ t)) = .ok u := by
  have hafter : afterScheme (schemeOf tls ++ t) = t := by cases tls <;> rfl
  unfold targetOf authorityOf urlRest
  rw [hafter]
  rcases find_char_cases 47 t with ⟨hno, hnone⟩ | ⟨a, r, rfl, ha, hfind⟩
  · rw [hnone, List.dropWhile_eq_nil_iff.mpr (forall_ne hno), List.takeWhile_eq_self_iff.mpr (forall_ne hno)]
    exact ⟨fun h => ⟨by decide, h⟩, fun h => h.2⟩
  · rw [hfind, dropWhile_ne ha, takeWhile_ne ha]
    dsimp only
    rw [List.drop_left' rfl, List.take_left' rfl]
    constructor
    · intro h
      split at h
      · cases h
      · rename_i hfit
        exact ⟨Nat.not_le.mp hfit, h⟩
    · rintro ⟨hfit, h⟩
      rw [if_neg (Nat.not_le.mpr hfit)]
      exact h

theorem urlParse_scheme (tls : Bool) (t : List UInt8) :
    urlParse (schemeOf tls ++ t) = urlRest tls (defaultPort tls) t := by
  cases tls <;> rfl

/-- **What `url_parse` accepts**: a scheme, lengths that fit, and an authority it can take apart. -/
theorem urlParse_iff {s : List UInt8} {u : Url} :
    urlParse s = .ok u ↔ (∃ t, s = schemeOf u.tls ++ t) ∧ (targetOf s).length < urlbuf ∧
      (authorityOf s ≠ [] ∧ (authorityOf s).length < hostbuf) ∧ u.path = targetOf s ∧
      Splits (defaultPort u.tls) (authorityOf s) u.host u.port := by
  have hsome : ∀ tls t, urlParse (schemeOf tls ++ t) = .ok u ↔
      (targetOf (schemeOf tls ++ t)).length < urlbuf ∧ (authorityOf (schemeOf tls ++ t) ≠ [] ∧
        (authorityOf (schemeOf tls ++ t)).length < hostbuf) ∧ u.tls = tls ∧
        u.path = targetOf (schemeOf tls ++ t) ∧
        Splits (defaultPort tls) (authorityOf (schemeOf tls ++ t)) u.host u.port := by
    intro tls t
    rw [urlParse_scheme, urlRest_iff, urlHost_iff]
  constructor
  · intro h
    obtain ⟨tls, t, rfl⟩ : ∃ tls t, s = schemeOf tls ++ t := by
      unfold urlParse at h
      split at h
      · rename_i hp
        obtain ⟨t, rfl⟩ := List.isPrefixOf_iff_prefix.mp hp
        exact ⟨false, t, rfl⟩
      · split at h
        · rename_i hp
          obtain ⟨t, rfl⟩ := List.isPrefixOf_iff_prefix.mp hp
          exact ⟨true, t, rfl⟩
        · cases h
    obtain ⟨hpath, hlen, rfl, htarget, hsplit⟩ := (hsome tls t).mp h
    exact ⟨⟨t, rfl⟩, hpath, hlen, htarget, hsplit⟩
  · rintro ⟨⟨t, rfl⟩, hpath, hlen, htarget, hsplit⟩
    exact (hsome u.tls t).mpr ⟨hpath, hlen, rfl, htarget, hsplit⟩

/-! ## 2. The grammar -/

/-- No bracket, colon, `@` or end of an authority. -/
def HostByte (b : UInt8) : Prop := b ∉ [91, 93, 58, 64, 47, 63, 35]

/-- No bracket and no end of an authority: what stands between brackets is not looked into. -/
def LiteralByte (b : UInt8) : Prop := b ∉ [91, 93, 47, 63, 35]

/-- One to five decimal digits. -/
structure PortText (port : List UInt8) : Prop where
  length : 1 ≤ port.length ∧ port.length ≤ 5
  digits : ∀ b ∈ port, 48 ≤ b ∧ b ≤ 57

/-- An authority, its host and its port. -/
inductive Authority (dflt : List UInt8) : List UInt8 → List UInt8 → List UInt8 → Prop where
  | name {host : List UInt8} (hne : host ≠ []) (hh : ∀ b ∈ host, HostByte b) :
      Authority dflt host host dflt
  | namePort {host port : List UInt8} (hne : host ≠ []) (hh : ∀ b ∈ host, HostByte b) (hp : PortText port) :
      Authority dflt (host ++ 58 :: port) host port
  | literal {lit : List UInt8} (hne : lit ≠ []) (hl : ∀ b ∈ lit, LiteralByte b) :
      Authority dflt (91 :: (lit ++ [93])) lit dflt
  | literalPort {lit port : List UInt8} (hne : lit ≠ []) (hl : ∀ b ∈ lit, LiteralByte b)
      (hp : PortText port) : Authority dflt (91 :: (lit ++ 93 :: 58 :: port)) lit port

/-- The path of a request: the rest of the URL, starting with a slash. -/
def slashed (rest : List UInt8) : List UInt8 := if rest.head? = some 47 then rest else 47 :: rest

/-- `s` is the URL with the authority `a`, the rest `rest` and the parts `u`. -/
structure UrlParts (s a rest : List UInt8) (u : Url) : Prop where
  text : s = schemeOf u.tls ++ (a ++ rest)
  authority : Authority (defaultPort u.tls) a u.host u.port
  short : a.length < hostbuf
  path : u.path = slashed rest
  path_short : u.path.length < urlbuf

/-- A URL and its parts: the authority ends at the first slash, question mark or hash, or at the end. -/
def IsUrl (s : List UInt8) (u : Url) : Prop :=
  ∃ a rest, UrlParts s a rest u ∧ (rest = [] ∨ ∃ b t, rest = b :: t ∧ b ∈ [47, 63, 35])

section

variable {dflt a host port : List UInt8}

/-- An authority has none of the bytes that end it. -/
theorem Authority.no_end (h : Authority dflt a host port) {b : UInt8} (hb : b ∈ [47, 63, 35]) : b ∉ a := by
  have hcases : b = 47 ∨ b = 63 ∨ b = 35 := by
    rcases List.mem_cons.mp hb with e | hb
    · exact .inl e
    rcases List.mem_cons.mp hb with e | hb
    · exact .inr (.inl e)
    · exact .inr (.inr (List.mem_singleton.mp hb))
  have hbyte : ¬ HostByte b ∧ ¬ LiteralByte b ∧ ¬ (48 ≤ b ∧ b ≤ 57) ∧ b ≠ 58 ∧ b ≠ 91 ∧ b ≠ 93 := by
    unfold HostByte LiteralByte
    rcases hcases with rfl | rfl | rfl <;> decide
  obtain ⟨hh, hl, hd, hcolon, hopen, hclose⟩ := hbyte
  intro hm
  cases h with
  | name hne h => exact hh (h b hm)
  | namePort hne h hp =>
    rcases List.mem_append.mp hm with hm | hm
    · exact hh (h b hm)
    rcases List.mem_cons.mp hm with e | hm
    · exact hcolon e
    · exact hd (hp.digits b hm)
  | literal hne h =>
    rcases List.mem_cons.mp hm with e | hm
    · exact hopen e
    rcases List.mem_append.mp hm with hm | hm
    · exact hl (h b hm)
    · exact hclose (List.mem_singleton.mp hm)
  | literalPort hne h hp =>
    rcases List.mem_cons.mp hm with e | hm
    · exact hopen e
    rcases List.mem_append.mp hm with hm | hm
    · exact hl (h b hm)
    rcases List.mem_cons.mp hm with e | hm
    · exact hclose e
    rcases List.mem_cons.mp hm with e | hm
    · exact hcolon e
    · exact hd (hp.digits b hm)

theorem Authority.ne_nil (h : Authority dflt a host port) : a ≠ [] := by
  cases h with
  | name hne h => exact hne
  | namePort hne h hp => exact fun e => hne (List.append_eq_nil_iff.mp e).1
  | literal => exact List.cons_ne_nil _ _
  | literalPort => exact List.cons_ne_nil _ _

/-- Every authority is taken apart as it should be. -/
theorem Authority.splits (h : Authority dflt a host port) : Splits dflt a host port := by
  have hhead : ∀ {host : List UInt8}, (∀ b ∈ host, HostByte b) → 58 ∉ host ∧ host.head? ≠ some 91 := by
    intro host hh
    refine ⟨fun hm => hh 58 hm (by decide), fun e => hh 91 (List.mem_of_mem_head? e) (by decide)⟩
  have hlit : ∀ {lit : List UInt8}, (∀ b ∈ lit, LiteralByte b) → 93 ∉ lit := fun hl hm =>
    hl 93 hm (by decide)
  have hport : ∀ {port : List UInt8}, PortText port → port.length < portbuf := fun hp =>
    Nat.lt_of_le_of_lt hp.length.2 (by decide)
  cases h with
  | name hne hh => exact .name (hhead hh).1 (hhead hh).2
  | namePort hne hh hp => exact .namePort (hhead hh).1 (hhead hh).2 (hport hp)
  | literal hne hl => exact .literal (hlit hl) (fun e => by cases e)
  | literalPort hne hl hp => exact .literalPort (hlit hl) (hport hp)

end

/-! ## 3. Where they differ -/

/-- Only the lengths and the brackets are right: the host is empty or has a byte that no host has, the port
    is no port, or something else stands behind the closing bracket. -/
inductive Malformed : List UInt8 → Prop where
  | name {host : List UInt8} (hc : 58 ∉ host) (hb : host.head? ≠ some 91) (hbad : ∃ b ∈ host, ¬ HostByte b) :
      Malformed host
  | namePort {host port : List UInt8} (hc : 58 ∉ host) (hb : host.head? ≠ some 91) (hp : port.length < portbuf)
      (hbad : host = [] ∨ (∃ b ∈ host, ¬ HostByte b) ∨ ¬ PortText port) : Malformed (host ++ 58 :: port)
  | literal {lit junk : List UInt8} (hl : 93 ∉ lit) (hj : junk.head? ≠ some 58)
      (hbad : lit = [] ∨ (∃ b ∈ lit, ¬ LiteralByte b) ∨ junk ≠ []) : Malformed (91 :: (lit ++ 93 :: junk))
  | literalPort {lit port : List UInt8} (hl : 93 ∉ lit) (hp : port.length < portbuf)
      (hbad : lit = [] ∨ (∃ b ∈ lit, ¬ LiteralByte b) ∨ ¬ PortText port) :
      Malformed (91 :: (lit ++ 93 :: 58 :: port))

section

variable {dflt a host port : List UInt8}

/-- What is taken apart and not malformed is an authority. -/
theorem authority_of_splits (hne : a ≠ []) (hok : ¬ Malformed a) (h : Splits dflt a host port) :
    Authority dflt a host port := by
  cases h with
  | name hc hb => exact .name hne fun b hm => not_not.mp fun hbad => hok (.name hc hb ⟨b, hm, hbad⟩)
  | namePort hc hb hp =>
    exact .namePort (fun e => hok (.namePort hc hb hp (.inl e)))
      (fun b hm => not_not.mp fun hbad => hok (.namePort hc hb hp (.inr (.inl ⟨b, hm, hbad⟩))))
      (not_not.mp fun hbad => hok (.namePort hc hb hp (.inr (.inr hbad))))
  | @literal lit junk hl hj =>
    obtain rfl : junk = [] := not_not.mp fun hbad => hok (.literal hl hj (.inr (.inr hbad)))
    exact .literal (fun e => hok (.literal hl hj (.inl e)))
      fun b hm => not_not.mp fun hbad => hok (.literal hl hj (.inr (.inl ⟨b, hm, hbad⟩)))
  | literalPort hl hp =>
    exact .literalPort (fun e => hok (.literalPort hl hp (.inl e)))
      (fun b hm => not_not.mp fun hbad => hok (.literalPort hl hp (.inr (.inl ⟨b, hm, hbad⟩))))
      (not_not.mp fun hbad => hok (.literalPort hl hp (.inr (.inr hbad))))

/-- The shapes of an authority with the host `host` and the port `port`. -/
theorem Authority.shape (h : Authority dflt a host port) : host ≠ [] ∧
    ((a = host ∧ ∀ b ∈ host, HostByte b) ∨ (a = host ++ 58 :: port ∧ (∀ b ∈ host, HostByte b) ∧ PortText port) ∨
      (a = 91 :: (host ++ [93]) ∧ ∀ b ∈ host, LiteralByte b) ∨
      (a = 91 :: (host ++ 93 :: 58 :: port) ∧ (∀ b ∈ host, LiteralByte b) ∧ PortText port)) := by
  cases h with
  | name hne hh => exact ⟨hne, .inl ⟨rfl, hh⟩⟩
  | namePort hne hh hp => exact ⟨hne, .inr (.inl ⟨rfl, hh, hp⟩)⟩
  | literal hne hl => exact ⟨hne, .inr (.inr (.inl ⟨rfl, hl⟩))⟩
  | literalPort hne hl hp => exact ⟨hne, .inr (.inr (.inr ⟨rfl, hl, hp⟩))⟩

/-- A malformed authority is taken apart, and is none. -/
theorem splits_of_malformed (h : Malformed a) (dflt : List UInt8) :
    ∃ host port, Splits dflt a host port ∧ ¬ Authority dflt a host port := by
  -- a longer list is another one, and no host begins with a bracket
  have hlong : ∀ {x y : List UInt8}, x.length ≠ y.length → x ≠ y := fun hl e => hl (congrArg List.length e)
  have hopen : ¬ HostByte 91 := by unfold HostByte; decide
  cases h with
  | name hc hb hbad =>
    refine ⟨a, dflt, .name hc hb, fun hauth => ?_⟩
    obtain ⟨b, hm, hno⟩ := hbad
    obtain ⟨-, ⟨-, hh⟩ | ⟨e, -⟩ | ⟨e, -⟩ | ⟨e, -⟩⟩ := hauth.shape
    · exact hno (hh b hm)
    · exact hlong (by simp) e
    · exact hb (by rw [e]; rfl)
    · exact hb (by rw [e]; rfl)
  | @namePort host port hc hb hp hbad =>
    refine ⟨host, port, .namePort hc hb hp, fun hauth => ?_⟩
    have hhead : ∀ {t : List UInt8}, host ≠ [] → host ++ 58 :: port ≠ 91 :: t := by
      intro t hne e
      obtain ⟨b, host, rfl⟩ := List.exists_cons_of_ne_nil hne
      exact hb (congrArg some (List.cons.inj e).1)
    obtain ⟨hne, ⟨e, -⟩ | ⟨-, hh, hport⟩ | ⟨e, -⟩ | ⟨e, -⟩⟩ := hauth.shape
    · exact hlong (by simp) e
    · obtain hnil | ⟨b, hm, hno⟩ | hno := hbad
      · exact hne hnil
      · exact hno (hh b hm)
      · exact hno hport
    · exact hhead hne e
    · exact hhead hne e
  | @literal lit junk hl hj hbad =>
    refine ⟨lit, dflt, .literal hl hj, fun hauth => ?_⟩
    obtain ⟨hne, ⟨e, -⟩ | ⟨e, hh, -⟩ | ⟨e, hlit⟩ | ⟨e, -⟩⟩ := hauth.shape
    · exact hlong (by simp; omega) e
    · obtain ⟨b, lit, rfl⟩ := List.exists_cons_of_ne_nil hne
      exact hopen ((List.cons.inj e).1 ▸ hh b List.mem_cons_self)
    · obtain hnil | ⟨b, hm, hno⟩ | hno := hbad
      · exact hne hnil
      · exact hno (hlit b hm)
      · exact hno (List.cons.inj (List.append_cancel_left (List.cons.inj e).2)).2
    · refine hj ?_
      rw [(List.cons.inj (List.append_cancel_left (List.cons.inj e).2)).2]
      rfl
  | @literalPort lit port hl hp hbad =>
    refine ⟨lit, port, .literalPort hl hp, fun hauth => ?_⟩
    obtain ⟨hne, ⟨e, -⟩ | ⟨e, hh, -⟩ | ⟨e, -⟩ | ⟨-, hlit, hport⟩⟩ := hauth.shape
    · exact hlong (by simp; omega) e
    · obtain ⟨b, lit, rfl⟩ := List.exists_cons_of_ne_nil hne
      exact hopen ((List.cons.inj e).1 ▸ hh b List.mem_cons_self)
    · exact List.cons_ne_nil _ _ (List.cons.inj (List.append_cancel_left (List.cons.inj e).2)).2
    · obtain hnil | ⟨b, hm, hno⟩ | hno := hbad
      · exact hne hnil
      · exact hno (hlit b hm)
      · exact hno hport

end

/-- The string is of neither kind that `url_parse` takes for something else: no URL whose authority is
    ended by a question mark or a hash, and no string with a malformed authority that fits its buffer. -/
structure Unambiguous (s : List UInt8) : Prop where
  ended : ∀ a b t u, UrlParts s a (b :: t) u → b ≠ 63 ∧ b ≠ 35
  split : ∀ tls t, s = schemeOf tls ++ t → authorityOf s ≠ [] → (authorityOf s).length < hostbuf →
    (targetOf s).length < urlbuf → ¬ Malformed (authorityOf s)

/-- A URL whose authority a slash ends, or nothing, has the authority that `url_parse` takes. -/
theorem parts_of_slash {s a rest : List UInt8} {u : Url} (h : UrlParts s a rest u)
    (hrest : rest = [] ∨ ∃ t, rest = 47 :: t) : authorityOf s = a ∧ targetOf s = slashed rest := by
  have hno : 47 ∉ a := h.authority.no_end (by decide)
  have hafter : afterScheme s = a ++ rest := by
    rw [h.text]
    cases u.tls <;> rfl
  unfold authorityOf targetOf slashed
  rw [hafter]
  rcases hrest with rfl | ⟨t, rfl⟩
  · rw [List.append_nil, List.takeWhile_eq_self_iff.mpr (forall_ne hno),
      List.dropWhile_eq_nil_iff.mpr (forall_ne hno)]
    exact ⟨rfl, rfl⟩
  · rw [takeWhile_ne hno, dropWhile_ne hno]
    exact ⟨rfl, rfl⟩

/-- What `url_parse` takes for the path is shorter than what a question mark or a hash begins. -/
theorem target_lt {s a t : List UInt8} {b : UInt8} {u : Url} (h : UrlParts s a (b :: t) u)
    (hb : b = 63 ∨ b = 35) : (targetOf s).length < (slashed (b :: t)).length := by
  have hno : 47 ∉ a := h.authority.no_end (by decide)
  have h47 : b ≠ 47 := by rcases hb with rfl | rfl <;> decide
  have hafter : afterScheme s = a ++ b :: t := by
    rw [h.text]
    cases u.tls <;> rfl
  have hdrop : (afterScheme s).dropWhile (fun c => decide (c ≠ 47)) = t.dropWhile fun c => decide (c ≠ 47) := by
    rw [hafter, List.dropWhile_append_of_pos (forall_ne hno), List.dropWhile_cons, if_pos (decide_eq_true h47)]
  have hle := (List.dropWhile_suffix (l := t) fun c => decide (c ≠ 47)).length_le
  have hsl : (slashed (b :: t)).length = t.length + 2 := by
    have hhead : ¬ (b :: t).head? = some 47 := fun e => h47 (Option.some.inj e)
    rw [slashed, if_neg hhead]
    rfl
  rw [hsl]
  unfold targetOf
  rw [hdrop]
  split
  · show 1 < t.length + 2
    omega
  · omega

/-- Without a question mark or a hash an authority ends at a slash or at the end. -/
theorem slash_of_ended {s a rest : List UInt8} {u : Url} (h : UrlParts s a rest u)
    (hended : ∀ a b t u, UrlParts s a (b :: t) u → b ≠ 63 ∧ b ≠ 35)
    (hrest : rest = [] ∨ ∃ b t, rest = b :: t ∧ b ∈ [47, 63, 35]) : rest = [] ∨ ∃ t, rest = 47 :: t := by
  rcases hrest with rfl | ⟨b, t, rfl, hb⟩
  · exact .inl rfl
  · obtain ⟨h63, h35⟩ := hended a b t u h
    rcases List.mem_cons.mp hb with rfl | hb
    · exact .inr ⟨t, rfl⟩
    rcases List.mem_cons.mp hb with e | hb
    · exact absurd e h63
    · exact absurd (List.mem_singleton.mp hb) h35

/-- **`url_parse` accepts exactly its grammar**, and takes it apart as it should, on the strings that are
    unambiguous. -/
theorem grammar_iff (s : List UInt8) : (∀ u, urlParse s = .ok u ↔ IsUrl s u) ↔ Unambiguous s := by
  constructor
  · intro h
    have hended : ∀ a b t u, UrlParts s a (b :: t) u → b ≠ 63 ∧ b ≠ 35 := by
      intro a b t u hu
      by_contra hno
      have hb : b = 63 ∨ b = 35 := by
        by_contra hb
        rw [not_or] at hb
        exact hno hb
      have hmem : b ∈ [47, 63, 35] := by rcases hb with rfl | rfl <;> decide
      have hpath := (urlParse_iff.mp ((h u).mpr ⟨a, b :: t, hu, .inr ⟨b, t, rfl, hmem⟩⟩)).2.2.2.1
      have hlt := target_lt hu hb
      rw [← hpath, hu.path] at hlt
      exact Nat.lt_irrefl _ hlt
    refine ⟨hended, fun tls t hs hne hlen htarget hbad => ?_⟩
    obtain ⟨host, port, hsplit, hnone⟩ := splits_of_malformed hbad (defaultPort tls)
    have hok : urlParse s = .ok ⟨tls, host, port, targetOf s⟩ :=
      urlParse_iff.mpr ⟨⟨t, hs⟩, htarget, ⟨hne, hlen⟩, rfl, hsplit⟩
    obtain ⟨a, rest, hu, hrest⟩ := (h _).mp hok
    rw [(parts_of_slash hu (slash_of_ended hu hended hrest)).1] at hnone
    exact hnone hu.authority
  · intro h u
    constructor
    · intro hok
      obtain ⟨⟨t, hs⟩, htarget, ⟨hne, hlen⟩, hpath, hsplit⟩ := urlParse_iff.mp hok
      have hauth := authority_of_splits hne (h.split u.tls t hs hne hlen htarget) hsplit
      obtain ⟨rest, htext, hrest⟩ : ∃ rest, t = authorityOf s ++ rest ∧
          (rest = [] ∧ targetOf s = [47] ∨ ∃ r, rest = 47 :: r ∧ targetOf s = rest) := by
        have hafter : afterScheme s = t := by
          rw [hs]
          cases u.tls <;> rfl
        unfold authorityOf targetOf
        rw [hafter]
        rcases find_char_cases 47 t with ⟨hno, -⟩ | ⟨a, r, rfl, ha, -⟩
        · rw [List.takeWhile_eq_self_iff.mpr (forall_ne hno), List.dropWhile_eq_nil_iff.mpr (forall_ne hno)]
          exact ⟨[], (List.append_nil t).symm, .inl ⟨rfl, rfl⟩⟩
        · rw [takeWhile_ne ha, dropWhile_ne ha]
          exact ⟨47 :: r, rfl, .inr ⟨r, rfl, rfl⟩⟩
      refine ⟨authorityOf s, rest, ⟨by rw [← htext]; exact hs, hauth, hlen, ?_, hpath ▸ htarget⟩, ?_⟩
      · rcases hrest with ⟨rfl, ht⟩ | ⟨r, rfl, ht⟩
        · exact hpath.trans ht
        · exact hpath.trans ht
      · rcases hrest with ⟨rfl, -⟩ | ⟨r, rfl, -⟩
        · exact .inl rfl
        · exact .inr ⟨47, r, rfl, List.mem_cons_self⟩
    · rintro ⟨a, rest, hu, hrest⟩
      obtain ⟨ha, ht⟩ := parts_of_slash hu (slash_of_ended hu h.ended hrest)
      refine urlParse_iff.mpr ⟨⟨_, hu.text⟩, ?_, ?_, ?_, ?_⟩
      · rw [ht, ← hu.path]
        exact hu.path_short
      · rw [ha]
        exact ⟨hu.authority.ne_nil, hu.short⟩
      · rw [ht, hu.path]
      · rw [ha]
        exact hu.authority.splits

/-- `http://:80/` is accepted, with an empty host; and in `http://a?b` the host is said to be `a?b`. -/
theorem not_grammar :
    (urlParse (httpScheme ++ [58, 56, 48, 47]) = .ok ⟨false, [], [56, 48], [47]⟩ ∧
      ¬ ∀ u, urlParse (httpScheme ++ [58, 56, 48, 47]) = .ok u ↔ IsUrl (httpScheme ++ [58, 56, 48, 47]) u) ∧
    (urlParse (httpScheme ++ [97, 63, 98]) = .ok ⟨false, [97, 63, 98], [56, 48], [47]⟩ ∧
      ¬ ∀ u, urlParse (httpScheme ++ [97, 63, 98]) = .ok u ↔ IsUrl (httpScheme ++ [97, 63, 98]) u) := by
  refine ⟨⟨rfl, fun h => ?_⟩, ⟨rfl, fun h => ?_⟩⟩
  · -- no authority has an empty host
    obtain ⟨a, rest, hu, -⟩ := (h ⟨false, [], [56, 48], [47]⟩).mp rfl
    generalize he : ([] : List UInt8) = host at hu
    have hauth := hu.authority
    dsimp only at hauth
    cases hauth with
    | name hne => exact hne he.symm
    | namePort hne => exact hne he.symm
    | literal hne => exact hne he.symm
    | literalPort hne => exact hne he.symm
  · have hbyte : ∀ b ∈ [(97 : UInt8)], HostByte b := fun b hb => by
      rw [List.mem_singleton.mp hb]
      unfold HostByte
      decide
    have hurl : IsUrl (httpScheme ++ [97, 63, 98]) ⟨false, [97], [56, 48], [47, 63, 98]⟩ :=
      ⟨[97], [63, 98], ⟨rfl, .name (List.cons_ne_nil _ _) hbyte, by decide, rfl, by decide⟩,
        .inr ⟨63, [98], rfl, by decide⟩⟩
    have hok := (h _).mpr hurl
    cases hok

end P4Linux.Hget
