import MindOS.Text.Uri

/-!
# Model downloads

Where a model may be downloaded from. The check cuts the host out of the URL at the
first slash; the program that downloads it reads the URL by its grammar.
-/

namespace MindOS.Models

open Text

/-- One downloadable model of the catalog. -/
structure CatalogEntry where
  url : Text

def allowedHost (host : Text) : Bool :=
  host == "huggingface.co".toList || host == "hf.co".toList
    || host.endsWith ".huggingface.co" || host.endsWith ".hf.co"

/-- What `allowed_url` takes for the host of a URL. -/
def hostPart (url : Text) : Text := upTo (url.drop "https://".toList.length) "/"

/-- Hosts a download may come from when the URL is not in the catalog. -/
def allowedUrl (url : Text) (catalog : List CatalogEntry) : Bool :=
  if catalog.any (·.url == url) then true
  else if url.startsWith "https://" then allowedHost (hostPart url)
  else false

/-! ### Hosts -/

/-- The host is one of the two domains or a subdomain. -/
def OfHuggingFace (host : Text) : Prop :=
  Within host "huggingface.co" ∨ Within host "hf.co"

instance (host : Text) : Decidable (OfHuggingFace host) := inferInstanceAs (Decidable (_ ∨ _))

theorem suffix_afterLast {t d : Text} {c : Char} (h : d <:+ t) (hc : c ∉ d) :
    d <:+ t.afterLast c := by
  obtain ⟨front, rfl⟩ := h
  have hall : ∀ x ∈ d.reverse, (x != c) = true := by
    intro x hx
    rw [bne_iff_ne]
    rintro rfl
    exact hc (List.mem_reverse.mp hx)
  rw [afterLast, List.rtakeWhile, List.reverse_append, List.takeWhile_append_of_pos hall,
    List.reverse_append, List.reverse_reverse]
  exact List.suffix_append _ d

theorem afterLast_suffix (t : Text) (c : Char) : t.afterLast c <:+ t :=
  List.rtakeWhile_suffix _ t

theorem allowedHost_afterLast {t : Text} (h : allowedHost t = true) :
    allowedHost (t.afterLast '@') = true := by
  have hsame : ∀ d : Text, '@' ∉ d → t = d → t.afterLast '@' = d := by
    rintro d hd rfl
    exact (afterLast_suffix t '@').eq_of_length_le (suffix_afterLast List.suffix_rfl hd).length_le
  simp only [allowedHost, Bool.or_eq_true, beq_iff_eq, endsWith, decide_eq_true_eq] at h ⊢
  obtain ((h | h) | h) | h := h
  · exact .inl (.inl (.inl (hsame _ (by decide) h)))
  · exact .inl (.inl (.inr (hsame _ (by decide) h)))
  · exact .inl (.inr (suffix_afterLast h (by decide)))
  · exact .inr (suffix_afterLast h (by decide))

theorem within_of_end {host domain : Text} (hne : domain ≠ [])
    (h : host = domain ∨ '.' :: domain <:+ host) : Within host domain := by
  have hend : domain <:+ host := by
    obtain rfl | h := h
    · exact List.suffix_rfl
    · exact (List.suffix_cons '.' domain).trans h
  apply (within_iff (hasRootDot_of_suffix hne hend)).mpr
  obtain rfl | h := h
  · exact .inl rfl
  · exact .inr (caseless_suffix h)

theorem ofHuggingFace_of_allowedHost {host : Text} (h : allowedHost host = true) :
    OfHuggingFace host := by
  simp only [allowedHost, Bool.or_eq_true, beq_iff_eq, endsWith, decide_eq_true_eq] at h
  obtain ((h | h) | h) | h := h
  · exact .inl (within_of_end (by decide) (.inl h))
  · exact .inr (within_of_end (by decide) (.inl h))
  · exact .inl (within_of_end (by decide) (.inr h))
  · exact .inr (within_of_end (by decide) (.inr h))

/-! ### URLs -/

/-- A URL that is accepted without being in the catalog is an `https` URL of one of the
two domains. -/
def Safe (url : Text) (catalog : List CatalogEntry) : Prop :=
  allowedUrl url catalog = true → (∀ c ∈ catalog, c.url ≠ url) →
    (Uri.ofText url).scheme = some "https".toList ∧
      ∃ host, (Uri.ofText url).host = some host ∧ OfHuggingFace host

/-- Between the scheme and the first slash there is a host alone, behind its user
information. -/
def Undelimited (t : Text) : Prop :=
  (∀ c ∈ t, c ∉ "?#".toList) ∧ ':' ∉ t.afterLast '@' ∧ (t.afterLast '@').startsWith ['['] = false

/-- What stands before the first delimiter, without the user information. -/
def beforeDelimiter (t : Text) : Text := (Authority.ofText (upTo t "?#")).host

theorem beforeDelimiter_of_undelimited {t : Text} (h : Undelimited t) :
    beforeDelimiter t = t.afterLast '@' := by
  rw [beforeDelimiter, upTo_eq_self h.1]
  exact Authority.host_eq_afterLast h.2.1 h.2.2

theorem host_https {url : Text} (h : url.startsWith "https://" = true) :
    (Uri.ofText url).scheme = some "https".toList ∧
      (Uri.ofText url).host = some (beforeDelimiter (hostPart url)) := by
  obtain ⟨rest, rfl⟩ := of_decide_eq_true h
  refine ⟨schemeOf_https rest, ?_⟩
  rw [Uri.host, authority_https, hostPart, List.drop_left, beforeDelimiter, upTo_upTo]
  rfl

theorem allowedUrl_of_not_mem {url : Text} {catalog : List CatalogEntry}
    (h : ∀ c ∈ catalog, c.url ≠ url) :
    allowedUrl url catalog = true ↔
      url.startsWith "https://" = true ∧ allowedHost (hostPart url) = true := by
  have hany : ¬catalog.any (·.url == url) = true := by
    simpa using h
  rw [allowedUrl, if_neg hany]
  split
  case isTrue hstart => exact (and_iff_right hstart).symm
  case isFalse hstart => exact iff_of_false (by decide) fun hand => hstart hand.1

/-- A URL is checked as it should be exactly when it is in the catalog, is not accepted,
has no delimiter before its first slash, or has an allowed host before its delimiters. -/
theorem safe_iff (url : Text) (catalog : List CatalogEntry) :
    Safe url catalog ↔
      (∃ c ∈ catalog, c.url = url) ∨ url.startsWith "https://" = false ∨
        allowedHost (hostPart url) = false ∨ Undelimited (hostPart url) ∨
          OfHuggingFace (beforeDelimiter (hostPart url)) := by
  by_cases hmem : ∃ c ∈ catalog, c.url = url
  · obtain ⟨c, hc, hurl⟩ := hmem
    exact iff_of_true (fun _ hno => absurd hurl (hno c hc)) (.inl ⟨c, hc, hurl⟩)
  have hno : ∀ c ∈ catalog, c.url ≠ url := fun c hc hurl => hmem ⟨c, hc, hurl⟩
  rw [Safe, allowedUrl_of_not_mem hno]
  constructor
  · intro h
    by_cases hstart : url.startsWith "https://" = true
    · by_cases hallowed : allowedHost (hostPart url) = true
      · obtain ⟨-, host, hhost, hof⟩ := h ⟨hstart, hallowed⟩ hno
        rw [(host_https hstart).2] at hhost
        cases hhost
        exact .inr (.inr (.inr (.inr hof)))
      · exact .inr (.inr (.inl (Bool.not_eq_true _ ▸ hallowed)))
    · exact .inr (.inl (Bool.not_eq_true _ ▸ hstart))
  · rintro h ⟨hstart, hallowed⟩ -
    obtain ⟨hscheme, hhost⟩ := host_https hstart
    refine ⟨hscheme, _, hhost, ?_⟩
    obtain h | h | h | h | h := h
    · exact absurd h hmem
    · rw [hstart] at h
      exact absurd h (by decide)
    · rw [hallowed] at h
      exact absurd h (by decide)
    · rw [beforeDelimiter_of_undelimited h]
      exact ofHuggingFace_of_allowedHost (allowedHost_afterLast hallowed)
    · exact h

/-- The end of a query, a fragment or a port passes for the host. -/
theorem not_safe :
    ¬Safe "https://evil.com?x=.hf.co" [] ∧ ¬Safe "https://evil.com#.hf.co" [] ∧
      ¬Safe "https://evil.com:x.hf.co/" [] := by
  have hno : ∀ url : Text, url.startsWith "https://" = true → allowedHost (hostPart url) = true →
      ¬OfHuggingFace (beforeDelimiter (hostPart url)) → ¬Safe url [] := by
    intro url hstart hallowed hother hsafe
    have hempty : ∀ c ∈ ([] : List CatalogEntry), c.url ≠ url := fun c hc => absurd hc (by simp)
    obtain ⟨-, host, hhost, hof⟩ :=
      hsafe ((allowedUrl_of_not_mem hempty).mpr ⟨hstart, hallowed⟩) hempty
    rw [(host_https hstart).2] at hhost
    cases hhost
    exact hother hof
  refine ⟨?_, ?_, ?_⟩
  · exact hno _ (by decide) (by decide) (by decide)
  · exact hno _ (by decide) (by decide) (by decide)
  · exact hno _ (by decide) (by decide) (by decide)

end MindOS.Models
