import MindOS.Daemon.Web.Basic
import MindOS.Options

/-!
# Where the connections go

`fetch` checks every hop: whatever the pages answer and the resolver says, it connects
to approved hosts at approved addresses only. `download` checks the first hop and gives
`curl` the redirects.
-/

namespace MindOS.Web

open Text Options

/-! ### What curl makes of its arguments -/

/-- The letters among the options of `curl` that are used here. -/
def curlLetters : List (Char × Text × Arity) := [
  ('s', "silent", .flag), ('S', "show-error", .flag), ('f', "fail", .flag),
  ('L', "location", .flag), ('A', "user-agent", .value), ('H', "header", .value),
  ('o', "output", .value), ('w', "write-out", .value)]

def curlOptions : List (Text × Arity) := curlLetters.map Prod.snd ++ [
  ("no-progress-meter".toList, .flag), ("compressed".toList, .flag),
  ("create-dirs".toList, .flag), ("proto".toList, .value), ("proto-redir".toList, .value),
  ("connect-timeout".toList, .value), ("max-time".toList, .value),
  ("max-filesize".toList, .value), ("max-redirs".toList, .value), ("resolve".toList, .value)]

def curlGrammar : Grammar Text where
  short := fun c => curlLetters.lookup c
  long := fun name => curlOptions.find? fun o => o.1 == name
  equals := false

/-- The value of an option: the last one counts. -/
def given (us : List (Use Text)) (option : Text) : Option Text :=
  ((us.filter fun u => u.option == option).getLast?).bind Use.value

def asked (us : List (Use Text)) (option : Text) : Bool := us.any fun u => u.option == option

/-- The options that `curl` is run with for its URL. -/
def Hop.Asks (h : Hop) (us : List (Use Text)) : Prop :=
  curlGrammar.parse none (h.argv.drop 1) = some (us, [h.url.text])

/-- What the manual of `curl` says of a run with these arguments. -/
structure Hop.Obeyed (h : Hop) : Prop where
  /-- Redirects are followed with `-L` only. -/
  single : ∀ us, h.Asks us → asked us "location".toList = false → h.requests.length ≤ 1
  /-- No more of them than `--max-redirs` says. -/
  count : ∀ us n, h.Asks us → given us "max-redirs".toList = some (Nat.toDigits 10 n) →
    h.requests.length ≤ n + 1
  /-- The first request is for the URL. -/
  first : ∀ us r, h.Asks us → h.requests.head? = some r →
    h.url.host = some r.host ∧ r.port = h.url.portOrDefault
  /-- Where `--resolve` has an entry for the host and port, it goes to an address of that. -/
  resolve : ∀ us r, h.Asks us → h.requests.head? = some r →
    given us "resolve".toList = some (resolveEntry r.host r.port h.approved.addrs) →
      r.addr ∈ h.approved.addrs

/-- A request of the `i`-th hop goes where the approval of that hop allows; `lenient` lets
this machine and the local network pass. -/
structure Pinned (env : Env) (cfg : WebConfig) (lenient : Bool) (i : Nat) (h : Hop)
    (r : Request) : Prop where
  approved : approve (env.lookup i) cfg h.url = .ok h.approved
  host : h.url.host = some r.host
  port : r.port = h.url.portOrDefault
  notDenied : denied cfg r.host = false
  resolved : env.lookup i r.host r.port = .found h.approved.addrs
  isPublic : lenient = true ∨ ∀ a ∈ h.approved.addrs, a.isPublic = true
  addr : r.addr ∈ h.approved.addrs

/-- The requests of a call. -/
def requestCount (hops : List Hop) : Nat := (hops.map fun h => h.requests.length).sum

theorem approve_eq_ok {lookup : Text → Nat → Lookup} {cfg : WebConfig} {u : Url} {a : Approved}
    (h : approve lookup cfg u = .ok a) :
    ∃ host, u.host = some host ∧ denied cfg host = false ∧
      lookup host u.portOrDefault = .found a.addrs ∧
      (cfg.allowPrivate = true ∨ ∀ ip ∈ a.addrs, ip.isPublic = true) ∧
      a.resolve = resolveEntry host u.portOrDefault a.addrs := by
  unfold approve at h
  split at h
  case isTrue => cases h
  case isFalse =>
    split at h
    case isTrue => cases h
    case isFalse =>
      split at h
      case h_1 => cases h
      case h_2 host hhost =>
        split at h
        case isTrue => cases h
        case isFalse hdenied =>
          dsimp only at h
          split at h
          case h_1 => cases h
          case h_2 => cases h
          case h_3 => cases h
          case h_4 addrs _ hlookup =>
            split at h
            case h_1 => cases h
            case h_2 hpublic =>
              obtain rfl := (Except.ok.inj h).symm
              refine ⟨host, hhost, by simpa using hdenied, hlookup, ?_, rfl⟩
              cases hprivate : cfg.allowPrivate with
              | true => exact .inl rfl
              | false =>
                  rw [hprivate] at hpublic
                  right
                  simpa using hpublic

/-- The run pins the addresses that were approved. -/
def Hop.Pins (h : Hop) (us : List (Use Text)) : Prop :=
  h.Asks us ∧ given us "resolve".toList = some h.approved.resolve

/-- With the entry of the approval among its arguments `curl` goes where it allows. -/
theorem Hop.Obeyed.pinned {env : Env} {cfg : WebConfig} {i : Nat} {h : Hop} {r : Request}
    {us : List (Use Text)} (hobeyed : h.Obeyed)
    (happroved : approve (env.lookup i) cfg h.url = .ok h.approved) (hpins : h.Pins us)
    (hr : h.requests.head? = some r) : Pinned env cfg cfg.allowPrivate i h r := by
  obtain ⟨hasks, hgiven⟩ := hpins
  obtain ⟨hhost, hport⟩ := hobeyed.first us r hasks hr
  obtain ⟨host, hhost', hdenied, hlookup, hpublic, hresolve⟩ := approve_eq_ok happroved
  obtain rfl : r.host = host := Option.some.inj (hhost.symm.trans hhost')
  exact {
    approved := happroved
    host := hhost
    port := hport
    notDenied := hdenied
    resolved := hport ▸ hlookup
    isPublic := hpublic
    addr := hobeyed.resolve us r hasks hr (by rw [hgiven, hresolve, hport]) }

theorem pins_getArgv (cfg : WebConfig) (u : Url) (a : Approved) (accept : Text) (maxBytes : Nat)
    (requests : List Request) :
    ∃ us, Hop.Pins ⟨u, a, getArgv cfg u a.resolve accept maxBytes, requests⟩ us ∧
      asked us "location".toList = false :=
  ⟨_, ⟨rfl, rfl⟩, rfl⟩

theorem pins_downloadArgv (cfg : WebConfig) (u : Url) (a : Approved) (dest : Text)
    (requests : List Request) :
    ∃ us, Hop.Pins ⟨u, a, downloadArgv cfg u a.resolve dest, requests⟩ us ∧
      given us "max-redirs".toList = some (Nat.toDigits 10 cfg.maxRedirects) :=
  ⟨_, ⟨rfl, rfl⟩, rfl⟩

/-! ### The redirect loop -/

section Fetch

variable (env : Env) (cfg : WebConfig) (accept : Text) (maxBytes : Nat)

theorem fetchLoop_hops (left i : Nat) (current : Url) (hops : List Text) :
    (fetchLoop env cfg accept maxBytes (left + 1) i current hops).1 = [] ∨
      ∃ h rest, (fetchLoop env cfg accept maxBytes (left + 1) i current hops).1 = h :: rest ∧
        approve (env.lookup i) cfg h.url = .ok h.approved ∧
        (∃ us, h.Pins us ∧ asked us "location".toList = false) ∧
        (rest = [] ∨ ∃ next hops',
          rest = (fetchLoop env cfg accept maxBytes left (i + 1) next hops').1) := by
  rw [fetchLoop]
  split
  case h_1 => exact .inl rfl
  case h_2 approved happroved =>
    right
    dsimp only
    split
    case h_1 => exact ⟨_, [], rfl, happroved, pins_getArgv .., .inl rfl⟩
    case h_2 =>
      split
      case h_1 => exact ⟨_, [], rfl, happroved, pins_getArgv .., .inl rfl⟩
      case h_2 => exact ⟨_, [], rfl, happroved, pins_getArgv .., .inl rfl⟩
      case h_3 next _ => exact ⟨_, _, rfl, happroved, pins_getArgv .., .inr ⟨next, _, rfl⟩⟩

/-- Every hop of the loop was approved with the answers of its own lookup. -/
theorem fetchLoop_approved {left i j : Nat} {current : Url} {hops : List Text} {h : Hop}
    (hj : (fetchLoop env cfg accept maxBytes left i current hops).1[j]? = some h) :
    approve (env.lookup (i + j)) cfg h.url = .ok h.approved ∧
      ∃ us, h.Pins us ∧ asked us "location".toList = false := by
  induction left generalizing i j current hops with
  | zero => simp [fetchLoop] at hj
  | succ left ih =>
      obtain hnil | ⟨h', rest, hhops, happroved, hpins, hrest⟩ :=
        fetchLoop_hops env cfg accept maxBytes left i current hops
      · simp [hnil] at hj
      · rw [hhops] at hj
        cases j with
        | zero =>
            obtain rfl : h' = h := by simpa using hj
            exact ⟨happroved, hpins⟩
        | succ j =>
            rw [List.getElem?_cons_succ] at hj
            obtain rfl | ⟨next, hops', rfl⟩ := hrest
            · simp at hj
            · have hnext := ih hj
              rwa [Nat.add_right_comm, Nat.add_assoc] at hnext

theorem length_fetchLoop (left i : Nat) (current : Url) (hops : List Text) :
    (fetchLoop env cfg accept maxBytes left i current hops).1.length ≤ left := by
  induction left generalizing i current hops with
  | zero => simp [fetchLoop]
  | succ left ih =>
      obtain hnil | ⟨h, rest, hhops, -, -, hrest⟩ :=
        fetchLoop_hops env cfg accept maxBytes left i current hops
      · simp [hnil]
      · rw [hhops, List.length_cons]
        obtain rfl | ⟨next, hops', rfl⟩ := hrest
        · simp
        · exact Nat.succ_le_succ (ih (i + 1) next hops')

theorem fetch_hops (raw : Text) :
    (fetch env cfg raw accept maxBytes).1 = [] ∨ ∃ u, (fetch env cfg raw accept maxBytes).1 =
      (fetchLoop env cfg accept maxBytes (cfg.maxRedirects + 1) 0 u []).1 := by
  unfold fetch
  split
  case isTrue => exact .inl rfl
  case isFalse =>
    split
    case h_1 => exact .inl rfl
    case h_2 u _ => exact .inr ⟨u, rfl⟩

theorem fetch_approved {raw : Text} {i : Nat} {h : Hop}
    (hi : (fetch env cfg raw accept maxBytes).1[i]? = some h) :
    approve (env.lookup i) cfg h.url = .ok h.approved ∧
      ∃ us, h.Pins us ∧ asked us "location".toList = false := by
  obtain hnil | ⟨u, hhops⟩ := fetch_hops env cfg accept maxBytes raw
  · simp [hnil] at hi
  · rw [hhops] at hi
    have happroved := fetchLoop_approved env cfg accept maxBytes hi
    rwa [Nat.zero_add] at happroved

theorem length_fetch (raw : Text) :
    (fetch env cfg raw accept maxBytes).1.length ≤ cfg.maxRedirects + 1 := by
  obtain hnil | ⟨u, hhops⟩ := fetch_hops env cfg accept maxBytes raw
  · simp [hnil]
  · rw [hhops]
    exact length_fetchLoop env cfg accept maxBytes _ 0 u []

end Fetch

theorem requestCount_le_length {hops : List Hop} (h : ∀ h ∈ hops, h.requests.length ≤ 1) :
    requestCount hops ≤ hops.length := by
  induction hops with
  | nil => exact le_rfl
  | cons hop hops ih =>
      have hcount := h hop List.mem_cons_self
      have hrest := ih fun h' hh' => h h' (List.mem_cons_of_mem hop hh')
      simp only [requestCount, List.map_cons, List.sum_cons, List.length_cons] at hrest ⊢
      omega

/-! ### Both calls -/

theorem download_hops (env : Env) (cfg : WebConfig) (raw dest : Text) (runas : Option Text) :
    (download env cfg raw dest runas).1 = [] ∨
      ∃ h, (download env cfg raw dest runas).1 = [h] ∧
        approve (env.lookup 0) cfg h.url = .ok h.approved ∧
        ∃ us, h.Pins us ∧
          given us "max-redirs".toList = some (Nat.toDigits 10 cfg.maxRedirects) := by
  unfold download
  split
  case isTrue => exact .inl rfl
  case isFalse =>
    split
    case h_1 => exact .inl rfl
    case h_2 u _ =>
      split
      case h_1 => exact .inl rfl
      case h_2 approved happroved =>
        right
        dsimp only
        split
        case h_1 => exact ⟨_, rfl, happroved, pins_downloadArgv ..⟩
        case h_2 =>
          split
          case isTrue => exact ⟨_, rfl, happroved, pins_downloadArgv ..⟩
          case isFalse => split <;> exact ⟨_, rfl, happroved, pins_downloadArgv ..⟩

/-- `a.example` redirects to this machine: `curl` reports that, or with `-L` follows it. -/
def redirecting : Env where
  parse := fun t =>
    if t = "http://a.example/f".toList then
      .ok ⟨"http", [], none, some "a.example", none, "http://a.example/f"⟩
    else .ok ⟨"http", [], none, some "127.0.0.1", none, "http://127.0.0.1/"⟩
  lookup := fun _ host _ =>
    if host = "a.example".toList then .found [.v4 93 184 216 34] else .found [.v4 127 0 0 1]
  curl := fun
    | 0, _ => ⟨[⟨"a.example", 80, .v4 93 184 216 34⟩], .ok ⟨[],
        "\nMIND-CODE 302\nMIND-TYPE \nMIND-REDIR http://127.0.0.1/\nMIND-IP 93.184.216.34\n",
        true⟩⟩
    | _, _ => ⟨[⟨"127.0.0.1", 80, .v4 127 0 0 1⟩], .ok ⟨[],
        "\nMIND-CODE 200\nMIND-TYPE text/html\nMIND-REDIR \nMIND-IP 127.0.0.1\n", true⟩⟩
  shell := fun _ => ⟨[⟨"a.example", 80, .v4 93 184 216 34⟩, ⟨"127.0.0.1", 80, .v4 127 0 0 1⟩],
    .ok ⟨[], [], true⟩⟩
  size := fun _ => .ok 0
  sha256 := fun _ => none

def firstUrl : Url := ⟨"http", [], none, some "a.example", none, "http://a.example/f"⟩

/-- A run for `a.example` with the arguments, and the requests of it. -/
def firstHop (argv : List Text) (requests : List Request) : Hop where
  url := firstUrl
  approved := ⟨"a.example:80:93.184.216.34", [.v4 93 184 216 34]⟩
  argv := argv
  requests := requests

theorem firstHop_obeyed {argv : List Text} {rest : List Request}
    (hsingle : ∀ us, (firstHop argv []).Asks us → asked us "location".toList = false → rest = [])
    (hcount : ∀ us n, (firstHop argv []).Asks us →
      given us "max-redirs".toList = some (Nat.toDigits 10 n) → rest.length ≤ n) :
    (firstHop argv (⟨"a.example", 80, .v4 93 184 216 34⟩ :: rest)).Obeyed where
  single us hasks hstay := by
    rw [hsingle us hasks hstay]
    exact Nat.le_refl 1
  count us n hasks hgiven := Nat.succ_le_succ (hcount us n hasks hgiven)
  first us r _ hr := by
    obtain rfl := Option.some.inj hr
    exact ⟨rfl, rfl⟩
  resolve us r _ hr _ := by
    obtain rfl := Option.some.inj hr
    exact List.mem_singleton_self _

theorem fetch_redirecting :
    (fetch redirecting {} "http://a.example/f" "*/*" 400000).1 =
      [firstHop (getArgv {} firstUrl "a.example:80:93.184.216.34" "*/*" 400000)
        [⟨"a.example", 80, .v4 93 184 216 34⟩]] := by
  decide

theorem download_redirecting :
    (download redirecting {} "http://a.example/f" "/tmp/f" none).1 =
      [firstHop (downloadArgv {} firstUrl "a.example:80:93.184.216.34" "/tmp/f")
        [⟨"a.example", 80, .v4 93 184 216 34⟩, ⟨"127.0.0.1", 80, .v4 127 0 0 1⟩]] := by
  decide

theorem download_obeyed :
    ∀ h ∈ (download redirecting {} "http://a.example/f" "/tmp/f" none).1, h.Obeyed := by
  rw [download_redirecting]
  rintro _ hh
  obtain rfl := List.mem_singleton.mp hh
  refine firstHop_obeyed (fun us hasks hstay => ?_) fun us n hasks hgiven => ?_
  · obtain ⟨rfl, -⟩ := Prod.mk.inj (Option.some.inj hasks)
    cases hstay
  · obtain ⟨rfl, -⟩ := Prod.mk.inj (Option.some.inj hasks)
    cases n with
    | zero => exact absurd hgiven (by decide)
    | succ n => exact Nat.succ_le_succ (Nat.zero_le n)

end MindOS.Web
