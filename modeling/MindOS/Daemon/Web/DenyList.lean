import MindOS.Daemon.Web.Basic
import MindOS.Text.Uri

/-!
# The deny list

What the patterns in `deny_hosts` refuse, against the domains they name. A host loses
its leading `www.` before it is compared and a pattern its blanks, so a pattern does not
see every spelling of a host in its domain.
-/

namespace MindOS.Web

open Text

/-- The host is in the domain that the pattern names; a blank pattern names none. -/
def InDomain (host pattern : Text) : Prop := trim pattern ≠ [] ∧ Within host (trim pattern)

instance (host pattern : Text) : Decidable (InDomain host pattern) :=
  inferInstanceAs (Decidable (_ ∧ _))

/-- Both have the root dot or neither has, and the pattern is not longer than the host
without its `www.` is. -/
def Comparable (host pattern : Text) : Prop :=
  hasRootDot host = hasRootDot (trim pattern) ∧
    (trim pattern).length ≤ (host.trimStartMatches "www.").length

/-! ### One pattern -/

theorem trimStartMatches_eq (t pat : Text) :
    ∃ front, t = front ++ t.trimStartMatches pat ∧ (front = [] ∨ pat <:+ front) := by
  have hgo : ∀ n t, ∃ front,
      t = front ++ trimStartMatches.go pat n t ∧ (front = [] ∨ pat <:+ front) := by
    intro n
    induction n with
    | zero => exact fun t => ⟨[], rfl, .inl rfl⟩
    | succ n ih =>
        intro t
        rw [trimStartMatches.go]
        split
        case isFalse => exact ⟨[], rfl, .inl rfl⟩
        case isTrue hstart =>
          obtain ⟨rest, rfl⟩ := of_decide_eq_true hstart
          rw [List.drop_left]
          obtain ⟨front, hrest, hfront⟩ := ih rest
          refine ⟨pat ++ front, ?_, .inr ?_⟩
          · rw [List.append_assoc, ← hrest]
          · obtain rfl | hend := hfront
            · rw [List.append_nil]
            · exact List.suffix_append_of_suffix hend
  exact hgo t.length t

section Pattern

variable {host pattern : Text}

theorem caseless_trimmed_suffix (host : Text) :
    caseless (host.trimStartMatches "www.") <:+ caseless host := by
  obtain ⟨front, hhost, -⟩ := trimStartMatches_eq host "www."
  exact caseless_suffix ⟨front, hhost.symm⟩

theorem hostMatches_eq_true_iff :
    hostMatches host pattern = true ↔
      trim pattern ≠ [] ∧ (caseless (host.trimStartMatches "www.") = caseless (trim pattern) ∨
        '.' :: caseless (trim pattern) <:+ caseless (host.trimStartMatches "www.")) := by
  have hnil : (asciiLower (trim pattern)).isEmpty = false ↔ trim pattern ≠ [] := by
    simp [asciiLower]
  simp only [hostMatches, Bool.and_eq_true, Bool.not_eq_true', hnil, Bool.or_eq_true, beq_iff_eq,
    endsWith, decide_eq_true_eq]
  rfl

theorem hostMatches_iff :
    hostMatches host pattern = true ↔ InDomain host pattern ∧ Comparable host pattern := by
  have hsuffix := caseless_trimmed_suffix host
  rw [hostMatches_eq_true_iff]
  constructor
  · rintro ⟨hne, hmatch⟩
    have hend : caseless (trim pattern) <:+ caseless (host.trimStartMatches "www.") := by
      obtain heq | hsub := hmatch
      · exact heq ▸ List.suffix_rfl
      · exact (List.suffix_cons _ _).trans hsub
    have hdot : hasRootDot host = hasRootDot (trim pattern) := by
      have hlower : caseless (trim pattern) ≠ [] := by simpa [caseless] using hne
      have hlast := hasRootDot_of_suffix hlower (hend.trans hsuffix)
      rwa [hasRootDot_caseless, hasRootDot_caseless] at hlast
    have hlength := hend.length_le
    rw [length_caseless, length_caseless] at hlength
    refine ⟨⟨hne, (within_iff hdot).mpr ?_⟩, hdot, hlength⟩
    obtain heq | hsub := hmatch
    · -- The host is the pattern behind some `www.`, or without it.
      obtain ⟨front, hhost, hfront⟩ := trimStartMatches_eq host "www."
      have hlower : caseless host = caseless front ++ caseless (trim pattern) := by
        rw [← heq, ← caseless_append, ← hhost]
      obtain rfl | ⟨rest, rfl⟩ := hfront
      · exact .inl hlower
      · right
        rw [hlower, caseless_append, List.append_assoc]
        exact List.suffix_append_of_suffix ⟨"www".toList, rfl⟩
    · exact .inr (hsub.trans hsuffix)
  · rintro ⟨⟨hne, hwithin⟩, hdot, hlength⟩
    refine ⟨hne, ?_⟩
    rw [← length_caseless, ← length_caseless (host.trimStartMatches "www.")] at hlength
    have hend : caseless (trim pattern) <:+ caseless host := by
      obtain heq | hsub := (within_iff hdot).mp hwithin
      · exact heq ▸ List.suffix_rfl
      · exact (List.suffix_cons _ _).trans hsub
    have hshort : caseless (trim pattern) <:+ caseless (host.trimStartMatches "www.") :=
      List.suffix_of_suffix_length_le hend hsuffix hlength
    obtain hlt | hle := Nat.lt_or_ge (caseless (trim pattern)).length
      (caseless (host.trimStartMatches "www.")).length
    · right
      obtain heq | hsub := (within_iff hdot).mp hwithin
      · have hle := hsuffix.length_le
        rw [heq] at hle
        omega
      · exact List.suffix_of_suffix_length_le hsub hsuffix hlt
    · exact .inl (hshort.eq_of_length_le hle).symm

end Pattern

/-! ### The list -/

/-- Whatever the list and the lookup are, a URL with this host is refused if the list has
the pattern. -/
def Refuses (pattern host : Text) : Prop :=
  ∀ lookup (cfg : WebConfig) (u : Url), pattern ∈ cfg.denyHosts → u.host = some host →
    ∃ e, approve lookup cfg u = .error e

/-- The pattern in the list makes no difference to URLs with this host. -/
def Ignores (pattern host : Text) : Prop :=
  ∀ lookup (cfg : WebConfig) (u : Url), u.host = some host →
    approve lookup cfg u =
      approve lookup { cfg with denyHosts := cfg.denyHosts.filter (· != pattern) } u

/-- The pattern refuses its domain, and nothing else. -/
def Guards (pattern host : Text) : Prop :=
  (InDomain host pattern → Refuses pattern host) ∧
    (¬InDomain host pattern → Ignores pattern host)

section List

variable {lookup : Text → Nat → Lookup} {cfg : WebConfig} {u : Url} {pattern host : Text}

theorem approve_of_denied (hhost : u.host = some host) (h : denied cfg host = true) :
    ∃ e, approve lookup cfg u = .error e := by
  rw [approve]
  split
  · exact ⟨_, rfl⟩
  split
  · exact ⟨_, rfl⟩
  · rw [hhost]
    exact ⟨_, if_pos h⟩

theorem approve_congr {patterns : List Text} (hhost : u.host = some host)
    (h : denied cfg host = denied { cfg with denyHosts := patterns } host) :
    approve lookup cfg u = approve lookup { cfg with denyHosts := patterns } u := by
  rw [approve, approve, hhost]
  simp only [h]

theorem denied_filter (h : hostMatches host pattern = false) :
    denied cfg host =
      denied { cfg with denyHosts := cfg.denyHosts.filter (· != pattern) } host := by
  rw [Bool.eq_iff_iff, denied, denied, List.any_eq_true, List.any_eq_true]
  constructor
  · rintro ⟨p, hp, hmatch⟩
    have hne : p ≠ pattern := by
      rintro rfl
      rw [h] at hmatch
      exact absurd hmatch (by decide)
    exact ⟨p, List.mem_filter.mpr ⟨hp, bne_iff_ne.mpr hne⟩, hmatch⟩
  · rintro ⟨p, hp, hmatch⟩
    exact ⟨p, (List.mem_filter.mp hp).1, hmatch⟩

end List

/-- A list of one pattern, and nothing else against the URL. -/
def onlyPattern (pattern : Text) : WebConfig := { allowPrivate := true, denyHosts := [pattern] }

def plainUrl (host : Text) : Url :=
  { scheme := "http", username := [], password := none, host := some host, port := none,
    text := [] }

def anyLookup : Text → Nat → Lookup := fun _ _ => .found [.v4 1 1 1 1]

theorem approve_plainUrl {patterns : List Text} {host : Text}
    (h : denied { allowPrivate := true, denyHosts := patterns } host = false) :
    ∃ a, approve anyLookup { allowPrivate := true, denyHosts := patterns } (plainUrl host) =
      .ok a := by
  refine ⟨⟨resolveEntry host 80 [.v4 1 1 1 1], [.v4 1 1 1 1]⟩, ?_⟩
  have hscheme :
      ¬((plainUrl host).scheme ≠ "http".toList ∧ (plainUrl host).scheme ≠ "https".toList) :=
    fun hother => hother.1 rfl
  have huser : ¬(!(plainUrl host).username.isEmpty || (plainUrl host).password.isSome) = true := by
    simp [plainUrl]
  rw [approve, if_neg hscheme, if_neg huser]
  simp only [plainUrl, h]
  rfl

theorem refuses_iff {pattern host : Text} :
    Refuses pattern host ↔ hostMatches host pattern = true := by
  constructor
  · intro h
    by_contra hno
    have hdenied : denied (onlyPattern pattern) host = false := by
      simpa [denied, onlyPattern] using hno
    obtain ⟨a, ha⟩ := approve_plainUrl hdenied
    obtain ⟨e, he⟩ := h anyLookup (onlyPattern pattern) (plainUrl host) List.mem_cons_self rfl
    rw [onlyPattern, ha] at he
    cases he
  · intro h lookup cfg u hmem hhost
    exact approve_of_denied hhost (List.any_eq_true.mpr ⟨pattern, hmem, h⟩)

theorem ignores_iff {pattern host : Text} :
    Ignores pattern host ↔ hostMatches host pattern = false := by
  constructor
  · intro h
    by_contra hmatch
    have hdenied : denied (onlyPattern pattern) host = true := by
      simpa [denied, onlyPattern] using hmatch
    have hrefused : ∃ e, approve anyLookup (onlyPattern pattern) (plainUrl host) = .error e :=
      approve_of_denied rfl hdenied
    have happroved : ∃ a, approve anyLookup { allowPrivate := true, denyHosts := [] }
        (plainUrl host) = .ok a := approve_plainUrl rfl
    obtain ⟨e, he⟩ := hrefused
    obtain ⟨a, ha⟩ := happroved
    have hsame := h anyLookup (onlyPattern pattern) (plainUrl host) rfl
    have hfilter : [pattern].filter (· != pattern) = [] := by simp
    simp only [onlyPattern, hfilter] at hsame he
    rw [he, ha] at hsame
    cases hsame
  · intro h lookup cfg u hhost
    exact approve_congr hhost (denied_filter h)

/-- A pattern does for a host what it says, exactly when the host is comparable with it or
outside of its domain. -/
theorem guards_iff (pattern host : Text) :
    Guards pattern host ↔ (InDomain host pattern → Comparable host pattern) := by
  rw [Guards, refuses_iff, ignores_iff, ← Bool.not_eq_true, hostMatches_iff]
  tauto

/-- The root dot, and a pattern with `www.`, let hosts of the domain through. -/
theorem not_guards :
    ¬Guards "example.com" "example.com." ∧ ¬Guards "www.example.com" "www.example.com" := by
  have hno : ∀ pattern host : Text, InDomain host pattern → hostMatches host pattern = false →
      ¬Guards pattern host := by
    intro pattern host hdomain hmatch hguards
    have h := refuses_iff.mp (hguards.1 hdomain)
    rw [hmatch] at h
    exact absurd h (by decide)
  constructor
  · exact hno _ _ (by decide) (by decide)
  · exact hno _ _ (by decide) (by decide)

end MindOS.Web
