import P4Linux.Hget.Grammar

/-!
# The Host field

* `Names` -- what the value of the field should be: the authority, such that it is found again in it;
* `host_named_iff` -- **the Host field names the authority that was connected to** if and only if there is
  nothing to add to the host: no brackets and no port but the scheme's.
-/

namespace P4Linux.Hget

open C

/-- The URL gave its host as a literal in brackets. -/
def Bracketed (s : List UInt8) : Prop := (authorityOf s).head? = some 91

instance (s : List UInt8) : Decidable (Bracketed s) := inferInstanceAs (Decidable (_ = _))

/-- The authority of a URL, written out again from its parts. -/
def authorityText (s : List UInt8) (u : Url) : List UInt8 :=
  (if Bracketed s then 91 :: (u.host ++ [93]) else u.host) ++
    (if u.port = defaultPort u.tls then [] else 58 :: u.port)

/-- `v` names the authority of the URL `s` with the parts `u`. -/
structure Names (s : List UInt8) (u : Url) (v : List UInt8) : Prop where
  text : v = authorityText s u
  again : ∃ u', urlParse (schemeOf u.tls ++ v) = .ok u' ∧ u'.host = u.host ∧ u'.port = u.port ∧ u'.tls = u.tls

/-- The value of the Host field in the request for `u`. -/
def HostField (u : Url) (v : List UInt8) : Prop := request u = reqGet ++ u.path ++ reqHost ++ v ++ reqTail

theorem hostField_iff {u : Url} {v : List UInt8} : HostField u v ↔ v = u.host := by
  unfold HostField request
  constructor
  · intro h
    exact (List.append_cancel_left (List.append_cancel_right h)).symm
  · rintro rfl
    rfl

/-- A host without brackets has neither a colon nor a slash in it. -/
theorem host_of_plain {s : List UInt8} {u : Url} (hu : urlParse s = .ok u) (hb : ¬ Bracketed s) :
    58 ∉ u.host ∧ 47 ∉ u.host ∧ u.host.head? ≠ some 91 := by
  obtain ⟨-, -, -, -, hsplit⟩ := urlParse_iff.mp hu
  have hslash : 47 ∉ authorityOf s := by
    intro hm
    unfold authorityOf at hm
    have hne := List.mem_takeWhile_imp hm
    cases hne
  unfold Bracketed at hb
  generalize authorityOf s = a at hsplit hslash hb
  generalize u.host = host at hsplit ⊢
  generalize u.port = port at hsplit
  generalize defaultPort u.tls = dflt at hsplit
  cases hsplit with
  | name hc hhead => exact ⟨hc, hslash, hhead⟩
  | namePort hc hhead => exact ⟨hc, fun hm => hslash (List.mem_append_left _ hm), hhead⟩
  | literal => exact absurd rfl hb
  | literalPort => exact absurd rfl hb

/-- The scheme and a host alone are a URL again. -/
theorem urlParse_host {tls : Bool} {host : List UInt8} (hne : host ≠ []) (hlen : host.length < hostbuf)
    (hcolon : 58 ∉ host) (hslash : 47 ∉ host) (hhead : host.head? ≠ some 91) :
    urlParse (schemeOf tls ++ host) = .ok ⟨tls, host, defaultPort tls, [47]⟩ := by
  have hafter : afterScheme (schemeOf tls ++ host) = host := by cases tls <;> rfl
  have hauth : authorityOf (schemeOf tls ++ host) = host := by
    rw [authorityOf, hafter, List.takeWhile_eq_self_iff.mpr (forall_ne hslash)]
  have htarget : targetOf (schemeOf tls ++ host) = [47] := by
    rw [targetOf, hafter, List.dropWhile_eq_nil_iff.mpr (forall_ne hslash)]
  refine urlParse_iff.mpr ⟨⟨host, rfl⟩, ?_, ?_, ?_, ?_⟩
  · rw [htarget]
    decide
  · rw [hauth]
    exact ⟨hne, hlen⟩
  · rw [htarget]
  · rw [hauth]
    exact .name hcolon hhead

/-- **The Host field names the authority that was connected to** if and only if the URL has no brackets, no
    port but the scheme's, and a host. -/
theorem host_named_iff {s : List UInt8} {u : Url} (hu : urlParse s = .ok u) :
    (∃ v, HostField u v ∧ Names s u v) ↔ ¬ Bracketed s ∧ u.port = defaultPort u.tls ∧ u.host ≠ [] := by
  constructor
  · rintro ⟨v, hv, htext, u', hagain, -, -, -⟩
    obtain rfl := hostField_iff.mp hv
    have hlen := congrArg List.length htext
    unfold authorityText at hlen
    rw [List.length_append] at hlen
    refine ⟨fun hb => ?_, ?_, fun he => ?_⟩
    · rw [if_pos hb, List.length_cons, List.length_append] at hlen
      omega
    · by_contra hp
      rw [if_neg hp, List.length_cons] at hlen
      split at hlen
      · rw [List.length_cons, List.length_append] at hlen
        omega
      · omega
    · -- the scheme alone has no authority
      rw [he, List.append_nil] at hagain
      obtain ⟨-, -, ⟨hne, -⟩, -⟩ := urlParse_iff.mp hagain
      exact hne (by cases u.tls <;> rfl)
  · rintro ⟨hb, hp, hne⟩
    obtain ⟨hcolon, hslash, hhead⟩ := host_of_plain hu hb
    refine ⟨u.host, hostField_iff.mpr rfl, ?_, _,
      urlParse_host hne (urlParse_parts hu).2.2.2 hcolon hslash hhead, rfl, hp.symm, rfl⟩
    rw [authorityText, if_neg hb, if_pos hp, List.append_nil]

/-- `http://a/` -/
theorem host_named_a : ∃ v, HostField ⟨false, [97], [56, 48], [47]⟩ v ∧
    Names (httpScheme ++ [97, 47]) ⟨false, [97], [56, 48], [47]⟩ v :=
  (host_named_iff rfl).mpr (by decide)

/-- `http://a:81/` and `http://[::1]/` -/
theorem not_host_named :
    (urlParse (httpScheme ++ [97, 58, 56, 49, 47]) = .ok ⟨false, [97], [56, 49], [47]⟩ ∧
      ¬ ∃ v, HostField ⟨false, [97], [56, 49], [47]⟩ v ∧
        Names (httpScheme ++ [97, 58, 56, 49, 47]) ⟨false, [97], [56, 49], [47]⟩ v) ∧
    (urlParse (httpScheme ++ [91, 58, 58, 49, 93, 47]) = .ok ⟨false, [58, 58, 49], [56, 48], [47]⟩ ∧
      ¬ ∃ v, HostField ⟨false, [58, 58, 49], [56, 48], [47]⟩ v ∧
        Names (httpScheme ++ [91, 58, 58, 49, 93, 47]) ⟨false, [58, 58, 49], [56, 48], [47]⟩ v) := by
  refine ⟨⟨rfl, ?_⟩, ⟨rfl, ?_⟩⟩
  all_goals
    rintro ⟨v, hv, hnames⟩
    rw [hostField_iff.mp hv] at hnames
    have htext := hnames.text
    revert htext
    decide

end P4Linux.Hget
