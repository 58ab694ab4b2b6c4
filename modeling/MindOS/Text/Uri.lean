import MindOS.Text.Words

/-!
# URIs and domain names

## The parts of a URI

A URI reference by its delimiters, in the order of RFC 3986: the scheme ends at the
first colon, the authority is introduced by two slashes and ends at the next `/`, `?` or
`#`, the query begins at the first `?` and the fragment at the first `#`. In the
authority user information stands before the last `@`, and a port behind a colon that
is not inside of the brackets of an address.
-/

namespace Text

structure Authority where
  userinfo : Option Text
  host : Text
  port : Option Text
  deriving DecidableEq

structure Uri where
  scheme : Option Text
  authority : Option Text
  path : Text
  query : Option Text
  fragment : Option Text
  deriving DecidableEq

/-- Everything up to the first delimiter. -/
def upTo (t delims : Text) : Text := t.takeWhile fun c => decide (c ∉ delims)

/-- Everything from the first delimiter on. -/
def fromFirst (t delims : Text) : Text := t.dropWhile fun c => decide (c ∉ delims)

def Authority.ofText (t : Text) : Authority :=
  let behind := t.afterLast '@'
  let host :=
    if behind.startsWith ['['] then upTo behind "]" ++ (fromFirst behind "]").take 1
    else upTo behind ":"
  { userinfo := if '@' ∈ t then some (t.take (t.length - behind.length - 1)) else none
    host := host
    port := match behind.drop host.length with
      | ':' :: port => some port
      | _ => none }

def schemeOf (t : Text) : Option Text :=
  if (fromFirst t ":/?#").startsWith [':'] ∧ upTo t ":/?#" ≠ [] then some (upTo t ":/?#") else none

/-- What stands behind the scheme and its colon. -/
def behindScheme (t : Text) : Text :=
  match schemeOf t with
  | some s => t.drop (s.length + 1)
  | none => t

/-- The authority, and what stands behind it. -/
def authorityOf (t : Text) : Option Text × Text :=
  match t with
  | '/' :: '/' :: rest => (some (upTo rest "/?#"), fromFirst rest "/?#")
  | _ => (none, t)

def Uri.ofText (t : Text) : Uri :=
  let (authority, rest) := authorityOf (behindScheme t)
  let behindPath := fromFirst rest "?#"
  let behindQuery := fromFirst behindPath "#"
  { scheme := schemeOf t
    authority := authority
    path := upTo rest "?#"
    query := if behindPath.startsWith ['?'] then some ((upTo behindPath "#").drop 1) else none
    fragment := if behindQuery.isEmpty then none else some (behindQuery.drop 1) }

/-- The host of a URI, if it has an authority. -/
def Uri.host (u : Uri) : Option Text := u.authority.map fun a => (Authority.ofText a).host

/-! ### Behind `https://` -/

theorem schemeOf_https (rest : Text) :
    schemeOf ("https://".toList ++ rest) = some "https".toList := rfl

theorem authority_https (rest : Text) :
    (Uri.ofText ("https://".toList ++ rest)).authority = some (upTo rest "/?#") := rfl

theorem upTo_upTo (t first second : Text) :
    upTo (upTo t first) second = upTo t (first ++ second) := by
  have hdelims : (fun c => decide (decide (c ∉ second) = true ∧ decide (c ∉ first) = true)) =
      fun c => decide (c ∉ first ++ second) := by
    funext c
    simp [and_comm]
  rw [upTo, upTo, List.takeWhile_takeWhile, hdelims]
  rfl

theorem upTo_eq_self {t delims : Text} (h : ∀ c ∈ t, c ∉ delims) : upTo t delims = t := by
  apply List.takeWhile_eq_self_iff.mpr
  intro c hc
  simpa using h c hc

theorem Authority.host_eq_afterLast {t : Text} (hcolon : ':' ∉ t.afterLast '@')
    (hbracket : (t.afterLast '@').startsWith ['['] = false) :
    (Authority.ofText t).host = t.afterLast '@' := by
  simp only [Authority.ofText, hbracket]
  apply upTo_eq_self
  intro c hc hdelim
  have hc' : c = ':' := by simpa using hdelim
  exact hcolon (hc' ▸ hc)

example :
    (Uri.ofText "https://me@evil.com:80/a?b=.hf.co#c".toList).host = some "evil.com".toList := by
  decide

example : Uri.ofText "https://evil.com?x=.hf.co".toList =
    { scheme := some "https".toList, authority := some "evil.com".toList, path := [],
      query := some "x=.hf.co".toList, fragment := none } := by decide

end Text

/-!
## Domain names

A domain name is its labels: the case of a letter and the dot of the root do not
matter. A name lies within a domain when its last labels are those of the domain,
which for two names that both have the root dot, or both lack it, is seen at their ends.
-/

namespace Text

/-- The name in lower case. -/
def caseless (t : Text) : Text := t.map Char.toLower

def hasRootDot (t : Text) : Bool := t.endsWith ['.']

/-- The labels of a domain name. -/
def labels (t : Text) : List Text :=
  (if hasRootDot t then (caseless t).dropLast else caseless t).splitOn '.'

/-- The domain itself or a subdomain of it. -/
def Within (t domain : Text) : Prop := labels domain <:+ labels t

instance (t domain : Text) : Decidable (Within t domain) :=
  inferInstanceAs (Decidable (_ <:+ _))

@[simp] theorem length_caseless (t : Text) : (caseless t).length = t.length := List.length_map _

@[simp] theorem caseless_append (t u : Text) : caseless (t ++ u) = caseless t ++ caseless u :=
  List.map_append

theorem caseless_suffix {t u : Text} (h : t <:+ u) : caseless t <:+ caseless u := by
  obtain ⟨front, rfl⟩ := h
  exact ⟨caseless front, (caseless_append front t).symm⟩

theorem hasRootDot_iff {t : Text} : hasRootDot t = true ↔ ∃ u, t = u ++ ['.'] := by
  rw [hasRootDot, endsWith, decide_eq_true_eq]
  exact ⟨fun ⟨u, hu⟩ => ⟨u, hu.symm⟩, fun ⟨u, hu⟩ => ⟨u, hu.symm⟩⟩

theorem hasRootDot_caseless (t : Text) : hasRootDot (caseless t) = hasRootDot t := by
  rw [Bool.eq_iff_iff, hasRootDot_iff, hasRootDot_iff]
  constructor
  · rintro ⟨u, hu⟩
    obtain ⟨v, w, rfl, rfl, hw⟩ := List.map_eq_append_iff.mp hu
    obtain ⟨c, rfl, hc⟩ := List.map_eq_singleton_iff.mp hw
    obtain hsame | hletter := toLower_cases c
    · exact ⟨v, by rw [← hc, hsame]⟩
    · rw [hc] at hletter
      exact absurd hletter (by decide)
  · rintro ⟨u, rfl⟩
    exact ⟨caseless u, caseless_append u ['.']⟩

theorem hasRootDot_of_suffix {t u : Text} (hne : u ≠ []) (h : u <:+ t) :
    hasRootDot t = hasRootDot u := by
  obtain ⟨front, rfl⟩ := h
  rw [Bool.eq_iff_iff, hasRootDot_iff, hasRootDot_iff]
  constructor
  · rintro ⟨v, hv⟩
    obtain ⟨init, c, rfl⟩ := (List.eq_nil_or_concat u).resolve_left hne
    rw [List.concat_eq_append, ← List.append_assoc] at hv
    have hlast := (List.append_inj' hv rfl).2
    exact ⟨init, by rw [List.concat_eq_append, hlast]⟩
  · rintro ⟨v, rfl⟩
    exact ⟨front ++ v, (List.append_assoc ..).symm⟩

theorem suffix_intercalate_append {c : Char} {front back : List Text} (hfront : front ≠ [])
    (hback : back ≠ []) : c :: [c].intercalate back <:+ [c].intercalate (front ++ back) := by
  induction front with
  | nil => exact absurd rfl hfront
  | cons piece front ih =>
      have hne : front ++ back ≠ [] := List.append_ne_nil_of_right_ne_nil front hback
      rw [List.cons_append, List.intercalate_cons_of_ne_nil hne, List.append_assoc]
      by_cases hnil : front = []
      · subst hnil
        exact List.suffix_append piece _
      · exact (ih hnil).trans (List.suffix_append_of_suffix (List.suffix_append _ _))

theorem splitOn_suffix_iff {c : Char} {t u : Text} :
    u.splitOn c <:+ t.splitOn c ↔ t = u ∨ c :: u <:+ t := by
  constructor
  · rintro ⟨front, hfront⟩
    have ht : [c].intercalate (t.splitOn c) = t := List.intercalate_splitOn c
    rw [← hfront] at ht
    by_cases hnil : front = []
    · subst hnil
      exact .inl (ht.symm.trans (List.intercalate_splitOn c))
    · have hend := suffix_intercalate_append (c := c) hnil (List.splitOn_ne_nil c u)
      rw [List.intercalate_splitOn, ht] at hend
      exact .inr hend
  · rintro (rfl | ⟨front, rfl⟩)
    · exact List.suffix_rfl
    · rw [List.splitOn_append_cons_self]
      exact List.suffix_append _ _

theorem append_singleton_suffix_iff {t u : Text} {c : Char} : u ++ [c] <:+ t ++ [c] ↔ u <:+ t := by
  constructor
  · rintro ⟨front, h⟩
    rw [← List.append_assoc] at h
    exact ⟨front, List.append_cancel_right h⟩
  · rintro ⟨front, rfl⟩
    exact ⟨front, (List.append_assoc ..).symm⟩

theorem within_iff {t domain : Text} (h : hasRootDot t = hasRootDot domain) :
    Within t domain ↔
      caseless t = caseless domain ∨ '.' :: caseless domain <:+ caseless t := by
  rw [Within, labels, labels, h]
  split
  case isFalse => exact splitOn_suffix_iff
  case isTrue hdot =>
    obtain ⟨u, rfl⟩ := hasRootDot_iff.mp hdot
    obtain ⟨v, rfl⟩ := hasRootDot_iff.mp (h.trans hdot)
    have hlower : caseless ['.'] = ['.'] := rfl
    rw [caseless_append, caseless_append, hlower, List.dropLast_concat, List.dropLast_concat,
      splitOn_suffix_iff, List.append_left_inj, ← List.cons_append, append_singleton_suffix_iff]

example : Within "www.Example.com.".toList "example.COM".toList := by decide

example : ¬Within "notexample.com".toList "example.com".toList := by decide

end Text
