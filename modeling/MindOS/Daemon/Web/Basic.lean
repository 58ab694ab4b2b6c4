import MindOS.Blocks
import MindOS.Daemon.Tools.Basic

/-!
# The network side of the tools

## Network addresses

IPv4 and IPv6 addresses as `std::net` has them: the ranges its predicates name, how
an address is printed, and which addresses the Mind may talk to.
-/

namespace MindOS.Web

open Text

inductive Ip where
  | v4 (a b c d : UInt8)
  | v6 (segments : Vector UInt16 8)
  deriving DecidableEq

namespace Ip

/-- `Ipv4Addr::is_private`, `is_link_local`, `is_broadcast`, `is_documentation`,
`is_multicast` and the other special ranges, on the four octets. -/
def isPublicV4 (a b c d : Nat) : Bool :=
  !(a == 127
    || a == 10 || (a == 172 && 16 ≤ b && b ≤ 31) || (a == 192 && b == 168)
    || (a == 169 && b == 254)
    || (a == 255 && b == 255 && c == 255 && d == 255)
    || (a == 192 && b == 0 && c == 2) || (a == 198 && b == 51 && c == 100)
    || (a == 203 && b == 0 && c == 113)
    || (a == 0 && b == 0 && c == 0 && d == 0)
    || (224 ≤ a && a ≤ 239)
    || a == 0
    || (a == 100 && b &&& 0xc0 == 64)
    || a &&& 0xf0 == 240)

/-- `to_ipv4_mapped`: the IPv4 address in `::ffff:a.b.c.d`. -/
def toIpv4Mapped (s : Vector UInt16 8) : Option (UInt8 × UInt8 × UInt8 × UInt8) :=
  if s.toList.take 6 = [0, 0, 0, 0, 0, 0xffff] then
    some ((s[6] / 256).toUInt8, (s[6] % 256).toUInt8, (s[7] / 256).toUInt8, (s[7] % 256).toUInt8)
  else none

/-- Addresses the Mind may talk to: anything that is not this machine, this network or
a special-purpose range. -/
def isPublic : Ip → Bool
  | v4 a b c d => isPublicV4 a.toNat b.toNat c.toNat d.toNat
  | v6 s =>
      if s.toList = [0, 0, 0, 0, 0, 0, 0, 1] || s.toList = [0, 0, 0, 0, 0, 0, 0, 0]
          || s[0] &&& 0xff00 == 0xff00 then false
      else
        match toIpv4Mapped s with
        | some (a, b, c, d) => isPublicV4 a.toNat b.toNat c.toNat d.toNat
        | none => s[0] &&& 0xfe00 != 0xfc00 && s[0] &&& 0xffc0 != 0xfe80

/-- `is_ipv6`. -/
def isIpv6 : Ip → Bool
  | v4 .. => false
  | v6 _ => true

/-- The first longest run of zero segments: where it starts and how long it is. -/
def longestZeros : Nat → List UInt16 → Nat × Nat → Nat × Nat → Nat × Nat
  | _, [], _, longest => longest
  | i, s :: segments, current, longest =>
      if s = 0 then
        let current := (if current.2 = 0 then i else current.1, current.2 + 1)
        longestZeros (i + 1) segments current (if longest.2 < current.2 then current else longest)
      else longestZeros (i + 1) segments (0, 0) longest

def printV4 (a b c d : UInt8) : Text :=
  join ['.'] ([a, b, c, d].map fun o => Nat.toDigits 10 o.toNat)

def printSegments (segments : List UInt16) : Text :=
  join [':'] (segments.map fun s => Nat.toDigits 16 s.toNat)

/-- `to_string`. -/
def print : Ip → Text
  | v4 a b c d => printV4 a b c d
  | v6 s =>
      match toIpv4Mapped s with
      | some (a, b, c, d) => "::ffff:".toList ++ printV4 a b c d
      | none =>
          let (start, length) := longestZeros 0 s.toList (0, 0) (0, 0)
          if 1 < length then
            printSegments (s.toList.take start) ++ "::".toList ++
              printSegments (s.toList.drop (start + length))
          else printSegments s.toList

/-- An address inside a `--resolve` entry. -/
def bracketed (a : Ip) : Text := if a.isIpv6 then '[' :: a.print ++ [']'] else a.print

end Ip

/-!
## Fetching and downloading

`approve`, the redirect loop of `fetch` around one `curl` a hop, and `download`, which
leaves its redirects to `curl`. The name lookup, `curl` and the `url` crate are outside:
a run gets their answers from an environment, one for each hop, and keeps what it ran
together with the connections that were made.
-/

/-- A parsed URL. -/
structure Url where
  scheme : Text
  username : Text
  password : Option Text
  host : Option Text
  port : Option Nat
  /-- `as_str`, and how it is printed. -/
  text : Text
  deriving DecidableEq

/-- `port_or_known_default`, with what `approve` takes where there is no default. -/
def Url.portOrDefault (u : Url) : Nat :=
  u.port.getD (if u.scheme = "https".toList then 443 else 80)

/-- The answer of a name lookup. -/
inductive Lookup where
  | timedOut
  | failed (e : Text)
  | found (addrs : List Ip)

/-- One HTTP request: the host and port it is for and the address it goes to. -/
structure Request where
  host : Text
  port : Nat
  addr : Ip
  deriving DecidableEq

/-- A finished program. -/
structure Exit where
  stdout : List UInt8
  stderr : Text
  ok : Bool

/-- A run of `curl`: the requests it made, and how it ended or why it did not. -/
structure Run where
  requests : List Request
  exit : Except Text Exit

/-- What is outside: the `url` crate, the name lookup and the runs of `curl` by their
number within one call, and what is found out about a file. -/
structure Env where
  parse : Text → Except Text Url
  lookup : Nat → Text → Nat → Lookup
  curl : Nat → List Text → Run
  shell : Text → Run
  size : Text → Except Text Nat
  sha256 : Text → Option Text

/-! ### Approval -/

def asciiLower (t : Text) : Text := t.map Char.toLower

def hostMatches (host pattern : Text) : Bool :=
  let h := asciiLower (host.trimStartMatches "www.".toList)
  let p := asciiLower pattern.trim
  !p.isEmpty && (h == p || h.endsWith ('.' :: p))

/-- The host is on the deny list. -/
def denied (cfg : WebConfig) (host : Text) : Bool := cfg.denyHosts.any (hostMatches host)

/-- One approved URL: the `--resolve` entry and the addresses in it. -/
structure Approved where
  resolve : Text
  addrs : List Ip
  deriving DecidableEq

def resolveEntry (host : Text) (port : Nat) (addrs : List Ip) : Text :=
  host ++ ':' :: Nat.toDigits 10 port ++ ':' :: join [','] (addrs.map Ip.bracketed)

def approve (lookup : Text → Nat → Lookup) (cfg : WebConfig) (u : Url) : Except Text Approved :=
  if u.scheme ≠ "http".toList ∧ u.scheme ≠ "https".toList then
    .error ("only http and https are allowed, not ".toList ++ u.scheme)
  else if !u.username.isEmpty || u.password.isSome then
    .error "URLs with a user name or password in them are not allowed".toList
  else
    match u.host with
    | none => .error (u.text ++ " has no host".toList)
    | some host =>
        if denied cfg host then
          .error (host ++ " is on the deny list in /etc/mindos/mind.toml".toList)
        else
          let port := u.portOrDefault
          match lookup host port with
          | .timedOut => .error (host ++ ": name lookup timed out".toList)
          | .failed e => .error (host ++ ": ".toList ++ e)
          | .found [] => .error (host ++ ": no address".toList)
          | .found addrs =>
              match if cfg.allowPrivate then none else addrs.find? fun a => !a.isPublic with
              | some bad =>
                  .error (host ++ " resolves to ".toList ++ bad.print ++
                    ", which is this machine or the local network. ".toList ++
                    "Set allow_private = true under [web] in /etc/mindos/mind.toml ".toList ++
                    "to allow that.".toList)
              | none => .ok ⟨resolveEntry host port addrs, addrs⟩

/-! ### One request -/

/-- A run of `curl`: the URL, what was approved for it, and the arguments. -/
structure Hop where
  url : Url
  approved : Approved
  argv : List Text
  /-- The requests it made. -/
  requests : List Request
  deriving DecidableEq

/-- The arguments of `curl_get`. There is no `-L`. -/
def getArgv (cfg : WebConfig) (u : Url) (resolve accept : Text) (maxBytes : Nat) : List Text := [
  "curl", "-sS", "--no-progress-meter", "--proto", "=http,https", "--compressed",
  "--connect-timeout", "10", "--max-time", Nat.toDigits 10 cfg.timeoutSecs,
  "--max-filesize", Nat.toDigits 10 (maxBytes + 1), "-A", cfg.userAgent,
  "-H", "Accept: ".toList ++ accept, "-H", "Accept-Language: en", "--resolve", resolve, "-o", "-",
  "-w", "%{stderr}\nMIND-CODE %{http_code}\nMIND-TYPE %{content_type}\n".toList ++
    "MIND-REDIR %{redirect_url}\nMIND-IP %{remote_ip}\n".toList,
  "--", u.text]

/-- `str::lines`. A carriage return is cut off in front of a newline only. -/
def lines (t : Text) : List Text :=
  let pieces := t.splitOnP (· == '\n')
  let last := pieces.getLastD []
  (pieces.dropLast.map fun l => if Text.endsWith l ['\r'] then l.dropLast else l) ++
    if last.isEmpty then [] else [last]

/-- The rest of the first line that starts with `key`, trimmed. -/
def field (stderr key : Text) : Text :=
  (((lines stderr).find? (·.startsWith key)).map fun l => trim (l.drop key.length)).getD []

/-- `str::parse::<u16>`. -/
def parseU16 (t : Text) : Option Nat :=
  let digits := if t.startsWith ['+'] then t.drop 1 else t
  if digits.isEmpty || !digits.all Char.isDigit then none
  else
    let n := digits.foldl (fun n c => 10 * n + (c.toNat - '0'.toNat)) 0
    if n < 2 ^ 16 then some n else none

structure CurlOut where
  status : Nat
  contentType : Text
  redirect : Text
  remoteIp : Text
  body : List UInt8
  truncated : Bool
  stderr : Text
  ok : Bool

/-- What `curl_get` reads off a run. -/
def curlOut (maxBytes : Nat) (e : Exit) : CurlOut where
  status := (parseU16 (field e.stderr "MIND-CODE ".toList)).getD 0
  contentType := asciiLower (field e.stderr "MIND-TYPE ".toList)
  redirect := field e.stderr "MIND-REDIR ".toList
  remoteIp := field e.stderr "MIND-IP ".toList
  body := e.stdout.take maxBytes
  truncated := decide (maxBytes < e.stdout.length)
  stderr := (join [' '] ((lines e.stderr).filter fun l => !l.startsWith "MIND-".toList)).trim
  ok := e.ok

/-! ### The redirect loop -/

structure Page where
  url : Text
  status : Nat
  contentType : Text
  body : List UInt8
  truncated : Bool
  hops : List Text

def webOff : Text := "web access is off: set enabled = true under [web] in /etc/mindos/mind.toml"

/-- The URL as it is, or with a scheme in front. -/
def parseRaw (env : Env) (raw : Text) : Except Text Url :=
  match env.parse raw.trim with
  | .ok u => .ok u
  | .error _ => env.parse ("https://".toList ++ raw.trim)

/-- Where an answer sends the loop: on to another URL, or out with the page. -/
def readAnswer (env : Env) (current : Url) (approved : Approved) (out : CurlOut)
    (hops : List Text) : Except Text (Url ⊕ Page) :=
  if !out.remoteIp.isEmpty && !approved.addrs.any (fun a => a.print == out.remoteIp) then
    .error (current.text ++ " was answered by ".toList ++ out.remoteIp ++
      ", which is not the address that was checked".toList)
  else if !out.ok && out.status == 0 then
    .error (current.text ++ ": ".toList ++
      if out.stderr.isEmpty then "request failed".toList else out.stderr)
  else if 300 ≤ out.status ∧ out.status < 400 ∧ out.redirect ≠ [] then
    (env.parse out.redirect).map .inl
  else .ok (.inr ⟨current.text, out.status, out.contentType, out.body, out.truncated, hops⟩)

/-- The hops from the `i`-th on, of which at most `left` may be made. -/
def fetchLoop (env : Env) (cfg : WebConfig) (accept : Text) (maxBytes : Nat) :
    Nat → Nat → Url → List Text → List Hop × Except Text Page
  | 0, _, _, _ =>
      ([], .error ("more than ".toList ++ Nat.toDigits 10 cfg.maxRedirects ++ " redirects".toList))
  | left + 1, i, current, hops =>
      match approve (env.lookup i) cfg current with
      | .error e => ([], .error e)
      | .ok approved =>
          let argv := getArgv cfg current approved.resolve accept maxBytes
          let run := env.curl i argv
          let hop : Hop := ⟨current, approved, argv, run.requests⟩
          match run.exit with
          | .error e => ([hop], .error e)
          | .ok e =>
              match readAnswer env current approved (curlOut maxBytes e) hops with
              | .error e => ([hop], .error e)
              | .ok (.inr page) => ([hop], .ok page)
              | .ok (.inl next) =>
                  let (rest, result) :=
                    fetchLoop env cfg accept maxBytes left (i + 1) next (hops ++ [current.text])
                  (hop :: rest, result)

/-- GET a URL, following redirects ourselves so each hop is checked. -/
def fetch (env : Env) (cfg : WebConfig) (raw accept : Text) (maxBytes : Nat) :
    List Hop × Except Text Page :=
  if !cfg.enabled then ([], .error webOff)
  else
    match parseRaw env raw with
    | .error e => ([], .error e)
    | .ok u => fetchLoop env cfg accept maxBytes (cfg.maxRedirects + 1) 0 u []

/-! ### Downloads -/

def downloadArgv (cfg : WebConfig) (u : Url) (resolve dest : Text) : List Text := [
  "curl", "-fSL", "--no-progress-meter", "--proto", "=http,https", "--proto-redir", "=http,https",
  "--max-redirs", Nat.toDigits 10 cfg.maxRedirects, "--connect-timeout", "10",
  "--max-time", Nat.toDigits 10 cfg.downloadTimeoutSecs,
  "--max-filesize", Nat.toDigits 10 cfg.maxDownloadBytes, "-A", cfg.userAgent,
  "--resolve", resolve, "--create-dirs", "-o", dest, "--", u.text]

/-- The shell command of a download, as the user who asked for it. -/
def downloadCommand (argv : List Text) (runas : Option Text) : Text :=
  let argv := join [' '] (argv.map Tools.shellQuote)
  match runas with
  | some user =>
      "runuser -u ".toList ++ Tools.shellQuote user ++ " -- /bin/sh -c ".toList ++
        Tools.shellQuote argv
  | none => argv

def downloadFailed (err : Text) : Text := "download failed: ".toList ++ err

/-- Download to a file. -/
def download (env : Env) (cfg : WebConfig) (raw dest : Text) (runas : Option Text) :
    List Hop × Except Text Json :=
  if !cfg.enabled then ([], .error webOff)
  else
    match parseRaw env raw with
    | .error e => ([], .error e)
    | .ok u =>
        match approve (env.lookup 0) cfg u with
        | .error e => ([], .error e)
        | .ok approved =>
            let argv := downloadArgv cfg u approved.resolve dest
            let run := env.shell (downloadCommand argv runas)
            let hop : Hop := ⟨u, approved, argv, run.requests⟩
            match run.exit with
            | .error e => ([hop], .error e)
            | .ok exit =>
                if !exit.ok then
                  let err := exit.stderr.trim
                  ([hop], .error (downloadFailed
                    (if err.isEmpty then "curl exited unsuccessfully".toList else err)))
                else
                  match env.size dest with
                  | .error e => ([hop], .error (dest ++ ": ".toList ++ e))
                  | .ok bytes =>
                      let sum := match env.sha256 dest with
                        | some s => Json.str s
                        | none => .null
                      ([hop], .ok (.obj [
                        ("bytes".toList, .int bytes), ("ok".toList, .bool true),
                        ("path".toList, .str dest), ("sha256".toList, sum),
                        ("url".toList, .str u.text)]))

/-!
## Special-purpose addresses

The address ranges that are not of the Internet, as blocks, against the addresses that
the tools may talk to. An IPv6 address also counts when it carries such an IPv4 address
with it.
-/

/-! ### The registry -/

/-- The special-purpose ranges of IPv4. -/
def specialV4 : List Block :=
  [⟨[127], 8⟩, ⟨[10], 8⟩, ⟨[172, 16], 12⟩, ⟨[192, 168], 16⟩, ⟨[169, 254], 16⟩, ⟨[100, 64], 10⟩,
    ⟨[0], 8⟩, ⟨[192, 0, 0], 24⟩, ⟨[198, 18], 15⟩, ⟨[192, 0, 2], 24⟩, ⟨[198, 51, 100], 24⟩,
    ⟨[203, 0, 113], 24⟩, ⟨[224], 4⟩, ⟨[240], 4⟩, ⟨[255, 255, 255, 255], 32⟩]

/-- The special-purpose ranges of IPv6: loopback, unspecified, unique-local, link-local,
multicast and documentation. -/
def specialV6 : List Block :=
  [⟨[0, 0, 0, 0, 0, 0, 0, 1], 128⟩, ⟨[0, 0, 0, 0, 0, 0, 0, 0], 128⟩, ⟨[0xfc00], 7⟩, ⟨[0xfe80], 10⟩,
    ⟨[0xff00], 8⟩, ⟨[0x2001, 0xdb8], 32⟩, ⟨[0x3fff, 0], 20⟩]

/-- A range of IPv6 addresses that carry an IPv4 address, in the segment `place` and the
next one. -/
structure Embedding where
  block : Block
  place : Nat

def mapped : Embedding := ⟨⟨[0, 0, 0, 0, 0, 0xffff], 96⟩, 6⟩

def compatible : Embedding := ⟨⟨[0, 0, 0, 0, 0, 0], 96⟩, 6⟩

def nat64 : Embedding := ⟨⟨[0x64, 0xff9b, 0, 0, 0, 0], 96⟩, 6⟩

def sixToFour : Embedding := ⟨⟨[0x2002], 16⟩, 1⟩

def segments (s : Vector UInt16 8) : List Nat := s.toList.map UInt16.toNat

/-- The octets of the IPv4 address that begins in a segment. -/
def octetsAt (s : Vector UInt16 8) (place : Nat) : List Nat :=
  let high := (segments s).getD place 0
  let low := (segments s).getD (place + 1) 0
  [high / 256, high % 256, low / 256, low % 256]

def Among (w : Nat) (blocks : List Block) (parts : List Nat) : Prop := ∃ b ∈ blocks, b.Has w parts

instance (w : Nat) (blocks : List Block) (parts : List Nat) : Decidable (Among w blocks parts) :=
  inferInstanceAs (Decidable (∃ b ∈ blocks, b.Has w parts))

/-- The address carries one of the IPv4 addresses. -/
def Carries (e : Embedding) (blocks : List Block) (s : Vector UInt16 8) : Prop :=
  e.block.Has 16 (segments s) ∧ Among 8 blocks (octetsAt s e.place)

instance (e : Embedding) (blocks : List Block) (s : Vector UInt16 8) :
    Decidable (Carries e blocks s) := inferInstanceAs (Decidable (_ ∧ _))

/-- The address is of a special-purpose range, or carries such an IPv4 address. -/
def Ip.Special : Ip → Prop
  | .v4 a b c d => Among 8 specialV4 [a.toNat, b.toNat, c.toNat, d.toNat]
  | .v6 s =>
      Among 16 specialV6 (segments s) ∨
        ∃ e ∈ [mapped, compatible, nat64, sixToFour], Carries e specialV4 s

/-! ### What is let through -/

/-- The ranges of IPv4 that `is_public` does not know: protocol assignments and benchmarks. -/
def missedV4 : List Block := [⟨[192, 0, 0], 24⟩, ⟨[198, 18], 15⟩]

def documentation : List Block := [⟨[0x2001, 0xdb8], 32⟩, ⟨[0x3fff, 0], 20⟩]

/-- The special addresses that `is_public` lets through: the IPv4 ranges it does not know,
also mapped, the documentation ranges, and what the other embeddings carry, `::` and `::1`
apart. -/
def Ip.Missed : Ip → Prop
  | .v4 a b c d => Among 8 missedV4 [a.toNat, b.toNat, c.toNat, d.toNat]
  | .v6 s =>
      Carries mapped missedV4 s ∨ Among 16 documentation (segments s) ∨
        (Carries compatible specialV4 s ∧ ¬Among 16 (specialV6.take 2) (segments s)) ∨
        Carries nat64 specialV4 s ∨ Carries sixToFour specialV4 s

/-! ### IPv4 -/

section Among

variable {w : Nat} {blocks others : List Block} {parts : List Nat}

theorem among_append :
    Among w (blocks ++ others) parts ↔ Among w blocks parts ∨ Among w others parts := by
  simp only [Among, List.mem_append, or_and_right, exists_or]

theorem among_of_perm (h : blocks.Perm others) : Among w blocks parts ↔ Among w others parts := by
  simp only [Among, h.mem_iff]

theorem among_mono (hsub : ∀ b ∈ blocks, b ∈ others) (h : Among w blocks parts) :
    Among w others parts := by
  obtain ⟨b, hb, hhas⟩ := h
  exact ⟨b, hsub b hb, hhas⟩

end Among

/-- The ranges that `is_public` knows. -/
def knownV4 : List Block :=
  [⟨[127], 8⟩, ⟨[10], 8⟩, ⟨[172, 16], 12⟩, ⟨[192, 168], 16⟩, ⟨[169, 254], 16⟩,
    ⟨[255, 255, 255, 255], 32⟩, ⟨[192, 0, 2], 24⟩, ⟨[198, 51, 100], 24⟩, ⟨[203, 0, 113], 24⟩,
    ⟨[224], 4⟩, ⟨[0], 8⟩, ⟨[100, 64], 10⟩, ⟨[240], 4⟩]

section Octets

variable {a b c d : Nat}

theorem isPublicV4_eq_false_iff (h : Block.Fits 8 [a, b, c, d]) :
    Ip.isPublicV4 a b c d = false ↔ Among 8 knownV4 [a, b, c, d] := by
  have hb := h.tail
  have hc := hb.tail
  have hd := hc.tail
  have hshared : b &&& 0xc0 = 64 ↔ b / 64 = 1 :=
    Block.and_mask_eq_iff (k := 6) (v := 1) (by decide) (hb b List.mem_cons_self)
  have hreserved : a &&& 0xf0 = 240 ↔ a / 16 = 15 :=
    Block.and_mask_eq_iff (k := 4) (v := 15) (by decide) (h a List.mem_cons_self)
  have hprivate : 16 ≤ b ∧ b ≤ 31 ↔ b / 16 = 1 := by omega
  have hmulticast : 224 ≤ a ∧ a ≤ 239 ↔ a / 16 = 14 := by omega
  -- The unspecified address is of 0/8.
  have hunspecified : ∀ p q : Prop,
      a = 0 ∧ b = 0 ∧ c = 0 ∧ d = 0 ∨ p ∨ a = 0 ∨ q ↔ p ∨ a = 0 ∨ q := by
    intro p q
    exact or_iff_right_of_imp fun hzero => .inr (.inl hzero.1)
  simp (disch := first | assumption | decide | simp) only [Among, knownV4,
    List.exists_mem_cons_iff, Block.has_cons, Block.has_singleton]
  simp only [Ip.isPublicV4, Bool.not_eq_eq_eq_not, Bool.not_false, Bool.or_eq_true,
    Bool.and_eq_true, beq_iff_eq, decide_eq_true_eq, hshared, hreserved, or_assoc, and_assoc,
    hprivate, hmulticast, hunspecified]
  norm_num

theorem isPublicV4_of_missed (h : Block.Fits 8 [a, b, c, d])
    (hmissed : Among 8 missedV4 [a, b, c, d]) : Ip.isPublicV4 a b c d = true := by
  have hb := h.tail
  have hc := hb.tail
  have hd := hc.tail
  simp (disch := first | assumption | decide | simp) only [Among, missedV4,
    List.exists_mem_cons_iff, Block.has_cons, Block.has_singleton] at hmissed
  norm_num at hmissed
  obtain ⟨rfl, rfl, rfl⟩ | ⟨rfl, hbench⟩ := hmissed
  · rfl
  · obtain rfl | rfl : b = 18 ∨ b = 19 := by omega
    · rfl
    · rfl

theorem among_specialV4_iff (h : Block.Fits 8 [a, b, c, d]) :
    Among 8 specialV4 [a, b, c, d] ↔
      Ip.isPublicV4 a b c d = false ∨ Among 8 missedV4 [a, b, c, d] := by
  have hperm : specialV4.Perm (knownV4 ++ missedV4) := by decide
  rw [among_of_perm hperm, among_append, isPublicV4_eq_false_iff h]

end Octets

/-! ### IPv6 -/

/-- The IPv6 ranges that `is_public` knows. -/
def knownV6 : List Block :=
  [⟨[0, 0, 0, 0, 0, 0, 0, 1], 128⟩, ⟨[0, 0, 0, 0, 0, 0, 0, 0], 128⟩, ⟨[0xff00], 8⟩, ⟨[0xfc00], 7⟩,
    ⟨[0xfe80], 10⟩]

theorem fits_segments (s : Vector UInt16 8) : Block.Fits 16 (segments s) := by
  intro p hp
  obtain ⟨q, -, rfl⟩ := List.mem_map.mp hp
  exact q.toNat_lt

theorem fits_octetsAt (s : Vector UInt16 8) (place : Nat) : Block.Fits 8 (octetsAt s place) := by
  have hlt : ∀ i, (segments s).getD i 0 < 2 ^ 16 := by
    intro i
    by_cases hi : i < (segments s).length
    · rw [List.getD_eq_getElem _ _ hi]
      exact fits_segments s _ (List.getElem_mem hi)
    · rw [List.getD_eq_default _ _ (by omega)]
      decide
  have hhigh := hlt place
  have hlow := hlt (place + 1)
  intro p hp
  simp only [octetsAt, List.mem_cons, List.not_mem_nil, or_false] at hp
  omega

theorem toList_eq_cons (s : Vector UInt16 8) : ∃ rest, s.toList = s[0] :: rest := by
  obtain ⟨⟨l⟩, hl⟩ := s
  match l, hl with
  | _ :: rest, _ => exact ⟨rest, rfl⟩

theorem getD_segments (s : Vector UInt16 8) {i : Nat} (hi : i < 8) :
    (segments s).getD i 0 = s[i].toNat := by
  simp [segments, List.getD_eq_getElem?_getD, hi]

theorem has_segments {s : Vector UInt16 8} (l : List UInt16) (hne : l ≠ [])
    (hlength : l.length ≤ 8) :
    Block.Has 16 ⟨l.map UInt16.toNat, 16 * l.length⟩ (segments s) ↔ s.toList.take l.length = l := by
  have hfits : Block.Fits 16 (l.map UInt16.toNat) := by
    intro p hp
    obtain ⟨q, -, rfl⟩ := List.mem_map.mp hp
    exact q.toNat_lt
  have hinj : Function.Injective UInt16.toNat := fun _ _ => UInt16.toNat_inj.mp
  have hwhole := Block.has_whole (fits_segments s) hfits (by simpa using hne)
    (by simpa [segments] using hlength) (by rw [List.length_map])
  rw [hwhole, List.length_map, segments, ← List.map_take]
  exact (List.map_injective_iff.mpr hinj).eq_iff

theorem has_address {s : Vector UInt16 8} (l : List UInt16) (hlength : l.length = 8) :
    Block.Has 16 ⟨l.map UInt16.toNat, 16 * l.length⟩ (segments s) ↔ s.toList = l := by
  have hall : s.toList.take 8 = s.toList := List.take_of_length_le (by simp)
  rw [has_segments l (List.ne_nil_of_length_eq_add_one hlength) hlength.le, hlength, hall]

theorem has_first {s : Vector UInt16 8} {p len : Nat} (hlen : len ≤ 16) :
    Block.Has 16 ⟨[p], len⟩ (segments s) ↔ s[0].toNat / 2 ^ (16 - len) = p / 2 ^ (16 - len) := by
  obtain ⟨rest, hrest⟩ := toList_eq_cons s
  have hfits := fits_segments s
  rw [segments, hrest, List.map_cons] at hfits ⊢
  exact Block.has_singleton hfits.tail hlen

theorem mask_eq_iff {p m v : UInt16} {k r : Nat} (hk : k ≤ 16) (hm : m.toNat = 2 ^ 16 - 2 ^ k)
    (hv : v.toNat = r * 2 ^ k) : p &&& m = v ↔ p.toNat / 2 ^ k = r := by
  rw [← UInt16.toNat_inj, UInt16.toNat_and, hm, hv]
  exact Block.and_mask_eq_iff hk p.toNat_lt

theorem among_knownV6_iff (s : Vector UInt16 8) :
    Among 16 knownV6 (segments s) ↔
      s.toList = [0, 0, 0, 0, 0, 0, 0, 1] ∨ s.toList = [0, 0, 0, 0, 0, 0, 0, 0] ∨
        s[0] &&& 0xff00 = 0xff00 ∨ s[0] &&& 0xfe00 = 0xfc00 ∨ s[0] &&& 0xffc0 = 0xfe80 := by
  have hloopback : Block.Has 16 ⟨[0, 0, 0, 0, 0, 0, 0, 1], 128⟩ (segments s) ↔
      s.toList = [0, 0, 0, 0, 0, 0, 0, 1] := has_address [0, 0, 0, 0, 0, 0, 0, 1] rfl
  have hunspecified : Block.Has 16 ⟨[0, 0, 0, 0, 0, 0, 0, 0], 128⟩ (segments s) ↔
      s.toList = [0, 0, 0, 0, 0, 0, 0, 0] := has_address [0, 0, 0, 0, 0, 0, 0, 0] rfl
  have hmulticast : s[0] &&& 0xff00 = 0xff00 ↔ s[0].toNat / 256 = 255 :=
    mask_eq_iff (k := 8) (by decide) (by decide) (by decide)
  have hunique : s[0] &&& 0xfe00 = 0xfc00 ↔ s[0].toNat / 512 = 126 :=
    mask_eq_iff (k := 9) (by decide) (by decide) (by decide)
  have hlink : s[0] &&& 0xffc0 = 0xfe80 ↔ s[0].toNat / 64 = 1018 :=
    mask_eq_iff (k := 6) (by decide) (by decide) (by decide)
  rw [hmulticast, hunique, hlink]
  simp (disch := decide) only [Among, knownV6, List.exists_mem_cons_iff, hloopback, hunspecified,
    has_first]
  norm_num

theorem has_mapped_iff (s : Vector UInt16 8) :
    mapped.block.Has 16 (segments s) ↔ s.toList.take 6 = [0, 0, 0, 0, 0, 0xffff] :=
  has_segments [0, 0, 0, 0, 0, 0xffff] (by decide) (by decide)

theorem toIpv4Mapped_of_mapped {s : Vector UInt16 8} (h : mapped.block.Has 16 (segments s)) :
    ∃ a b c d, Ip.toIpv4Mapped s = some (a, b, c, d) ∧
      [a.toNat, b.toNat, c.toNat, d.toNat] = octetsAt s 6 := by
  refine ⟨_, _, _, _, if_pos ((has_mapped_iff s).mp h), ?_⟩
  have hhigh : s[6].toNat < 65536 := s[6].toNat_lt
  have hlow : s[7].toNat < 65536 := s[7].toNat_lt
  have h256 : (256 : UInt16).toNat = 256 := by decide
  have hsix := getD_segments s (i := 6) (by decide)
  have hseven := getD_segments s (i := 7) (by decide)
  rw [octetsAt, hsix, hseven]
  simp only [UInt16.toNat_toUInt8, UInt16.toNat_div, UInt16.toNat_mod, h256, List.cons.injEq,
    and_true]
  omega

theorem isPublicV6_eq_false_iff (s : Vector UInt16 8) :
    Ip.isPublic (.v6 s) = false ↔
      Among 16 knownV6 (segments s) ∨ Carries mapped knownV4 s := by
  rw [among_knownV6_iff, Ip.isPublic]
  by_cases hlocal : s.toList = [0, 0, 0, 0, 0, 0, 0, 1] ∨ s.toList = [0, 0, 0, 0, 0, 0, 0, 0] ∨
      s[0] &&& 0xff00 = 0xff00
  · rw [if_pos (by simpa [or_assoc] using hlocal)]
    tauto
  rw [if_neg (by simpa [or_assoc] using hlocal)]
  by_cases hmapped : mapped.block.Has 16 (segments s)
  · obtain ⟨a, b, c, d, hsome, hoctets⟩ := toIpv4Mapped_of_mapped hmapped
    have hzero : s[0] = 0 := by
      have htake := (has_mapped_iff s).mp hmapped
      obtain ⟨rest, hrest⟩ := toList_eq_cons s
      rw [hrest] at htake
      exact (List.cons.inj htake).1
    have hfits : Block.Fits 8 [a.toNat, b.toNat, c.toNat, d.toNat] := by
      rw [hoctets]
      exact fits_octetsAt s 6
    have hknown : Carries mapped knownV4 s ↔ Among 8 knownV4 (octetsAt s 6) :=
      and_iff_right hmapped
    rw [hsome, hknown, ← hoctets, ← isPublicV4_eq_false_iff hfits]
    have hunique : s[0] &&& 0xfe00 ≠ 0xfc00 := by
      rw [hzero]
      decide
    have hlink : s[0] &&& 0xffc0 ≠ 0xfe80 := by
      rw [hzero]
      decide
    tauto
  · have hnone : Ip.toIpv4Mapped s = none := if_neg fun h => hmapped ((has_mapped_iff s).mpr h)
    have hknown : ¬Carries mapped knownV4 s := fun h => hmapped h.1
    have htests : (s[0] &&& 0xfe00 != 0xfc00 && s[0] &&& 0xffc0 != 0xfe80) = false ↔
        s[0] &&& 0xfe00 = 0xfc00 ∨ s[0] &&& 0xffc0 = 0xfe80 := by
      rw [Bool.and_eq_false_iff, bne_eq_false_iff_eq, bne_eq_false_iff_eq]
    rw [hnone]
    apply htests.trans
    tauto

/-! ### What passes -/

section Passes

variable {s : Vector UInt16 8}

theorem first_eq {p q len : Nat} {rest : List Nat} (hfits : Block.Fits 16 (q :: rest))
    (hlength : (q :: rest).length ≤ 7) (hlen : 16 ≤ len)
    (h : Block.Has 16 ⟨p :: q :: rest, len⟩ (segments s)) : s[0].toNat = p := by
  obtain ⟨tail, htail⟩ := toList_eq_cons s
  have hsize : tail.length = 7 := by
    have hs : s.toList.length = 8 := by simp
    rw [htail] at hs
    exact Nat.succ_inj.mp hs
  have hsegments := fits_segments s
  rw [segments, htail, List.map_cons] at hsegments h
  exact ((Block.has_cons hsegments.tail hfits (by simpa [hsize] using hlength) hlen).mp h).1

theorem first_of_mapped (h : mapped.block.Has 16 (segments s)) : s[0].toNat = 0 :=
  first_eq (by decide) (by decide) (by decide) h

theorem known_cases (h : Among 16 knownV6 (segments s)) :
    Among 16 (specialV6.take 2) (segments s) ∨ 0xfc00 ≤ s[0].toNat := by
  obtain ⟨b, hb, hhas⟩ := h
  simp only [knownV6, List.mem_cons, List.not_mem_nil, or_false] at hb
  obtain rfl | rfl | rfl | rfl | rfl := hb
  · exact .inl ⟨_, List.mem_cons_self, hhas⟩
  · exact .inl ⟨_, List.mem_cons_of_mem _ List.mem_cons_self, hhas⟩
  all_goals
    right
    rw [has_first (by decide)] at hhas
    omega

theorem take_of_ends (h : Among 16 (specialV6.take 2) (segments s)) :
    s.toList.take 6 = [0, 0, 0, 0, 0, 0] := by
  obtain ⟨b, hb, hhas⟩ := h
  simp only [specialV6, List.take_succ_cons, List.take_zero, List.mem_cons, List.not_mem_nil,
    or_false] at hb
  obtain rfl | rfl := hb
  · rw [(has_address [0, 0, 0, 0, 0, 0, 0, 1] rfl).mp hhas]
    rfl
  · rw [(has_address [0, 0, 0, 0, 0, 0, 0, 0] rfl).mp hhas]
    rfl

theorem isPublic_of_between (hpos : 0 < s[0].toNat) (hlt : s[0].toNat < 0xfc00) :
    Ip.isPublic (.v6 s) = true := by
  rw [← Bool.not_eq_false, isPublicV6_eq_false_iff]
  rintro (hknown | hmapped)
  · obtain hends | hhigh := known_cases hknown
    · have htake := take_of_ends hends
      obtain ⟨rest, hrest⟩ := toList_eq_cons s
      rw [hrest] at htake
      rw [(List.cons.inj htake).1] at hpos
      exact absurd hpos (by decide)
    · omega
  · have hzero := first_of_mapped hmapped.1
    omega

theorem isPublicV6_of_missed (h : Ip.Missed (.v6 s)) : Ip.isPublic (.v6 s) = true := by
  obtain ⟨hmapped, hmissed⟩ | ⟨b, hb, hhas⟩ | ⟨⟨hcompatible, -⟩, hends⟩ | ⟨hnat64, -⟩ |
    ⟨hsix, -⟩ := h
  · -- Mapped: no other range has it, and of IPv4 the known ones do not.
    rw [← Bool.not_eq_false, isPublicV6_eq_false_iff]
    rintro (hknown | ⟨-, hknown⟩)
    · obtain hends | hhigh := known_cases hknown
      · have htake := (has_mapped_iff s).mp hmapped
        rw [take_of_ends hends] at htake
        exact absurd htake (by decide)
      · have hzero := first_of_mapped hmapped
        omega
    · have hfits := fits_octetsAt s 6
      have hpublic := isPublicV4_of_missed hfits hmissed
      rw [(isPublicV4_eq_false_iff hfits).mpr hknown] at hpublic
      exact absurd hpublic (by decide)
  · have hfirst : s[0].toNat = 0x2001 ∨ s[0].toNat = 0x3fff := by
      simp only [documentation, List.mem_cons, List.not_mem_nil, or_false] at hb
      obtain rfl | rfl := hb
      · exact .inl (first_eq (by decide) (by decide) (by decide) hhas)
      · exact .inr (first_eq (by decide) (by decide) (by decide) hhas)
    apply isPublic_of_between
    · omega
    · omega
  · have htake : s.toList.take 6 = [0, 0, 0, 0, 0, 0] :=
      (has_segments [0, 0, 0, 0, 0, 0] (by decide) (by decide)).mp hcompatible
    rw [← Bool.not_eq_false, isPublicV6_eq_false_iff]
    rintro (hknown | ⟨hmapped, -⟩)
    · obtain h | hhigh := known_cases hknown
      · exact hends h
      · have hzero : s[0].toNat = 0 :=
          first_eq (by decide) (by decide) (by decide) hcompatible
        omega
    · have hother := (has_mapped_iff s).mp hmapped
      rw [htake] at hother
      exact absurd hother (by decide)
  · have hfirst : s[0].toNat = 0x64 := first_eq (by decide) (by decide) (by decide) hnat64
    apply isPublic_of_between
    · omega
    · omega
  · rw [sixToFour, has_first (by decide)] at hsix
    apply isPublic_of_between
    · omega
    · omega

end Passes

theorem carries_mapped_special {s : Vector UInt16 8} (h : Carries mapped specialV4 s) :
    Carries mapped knownV4 s ∨ Carries mapped missedV4 s := by
  have hfits := fits_octetsAt s 6
  obtain hknown | hmissed := (among_specialV4_iff hfits).mp h.2
  · exact .inl ⟨h.1, (isPublicV4_eq_false_iff hfits).mp hknown⟩
  · exact .inr ⟨h.1, hmissed⟩

theorem fits_octets (a b c d : UInt8) : Block.Fits 8 [a.toNat, b.toNat, c.toNat, d.toNat] := by
  intro p hp
  obtain ⟨q, -, rfl⟩ : ∃ q ∈ [a, b, c, d], q.toNat = p := List.mem_map.mp hp
  exact q.toNat_lt

namespace Ip

theorem Special.cases {ip : Ip} (h : ip.Special) : ip.isPublic = false ∨ ip.Missed := by
  cases ip with
  | v4 a b c d => exact (among_specialV4_iff (fits_octets a b c d)).mp h
  | v6 s =>
      rw [isPublicV6_eq_false_iff]
      obtain hrange | ⟨e, he, hcarries⟩ := h
      · have hperm : specialV6.Perm (knownV6 ++ documentation) := by decide
        rw [among_of_perm hperm, among_append] at hrange
        obtain hknown | hdocumentation := hrange
        · exact .inl (.inl hknown)
        · exact .inr (.inr (.inl hdocumentation))
      · simp only [List.mem_cons, List.not_mem_nil, or_false] at he
        obtain rfl | rfl | rfl | rfl := he
        · obtain hknown | hmissed := carries_mapped_special hcarries
          · exact .inl (.inr hknown)
          · exact .inr (.inl hmissed)
        · by_cases hends : Among 16 (specialV6.take 2) (segments s)
          · exact .inl (.inl (among_mono (by decide) hends))
          · exact .inr (.inr (.inr (.inl ⟨hcarries, hends⟩)))
        · exact .inr (.inr (.inr (.inr (.inl hcarries))))
        · exact .inr (.inr (.inr (.inr (.inr hcarries))))

theorem Missed.special {ip : Ip} (h : ip.Missed) : ip.Special := by
  cases ip with
  | v4 a b c d => exact among_mono (by decide) h
  | v6 s =>
      obtain ⟨hmapped, hmissed⟩ | hrange | ⟨hcarries, -⟩ | hcarries | hcarries := h
      · exact .inr ⟨mapped, by simp, hmapped, among_mono (by decide) hmissed⟩
      · exact .inl (among_mono (by decide) hrange)
      · exact .inr ⟨compatible, by simp, hcarries⟩
      · exact .inr ⟨nat64, by simp, hcarries⟩
      · exact .inr ⟨sixToFour, by simp, hcarries⟩

theorem Missed.isPublic {ip : Ip} (h : ip.Missed) : ip.isPublic = true := by
  cases ip with
  | v4 a b c d => exact isPublicV4_of_missed (fits_octets a b c d) h
  | v6 s => exact isPublicV6_of_missed h

/-- A special-purpose address is refused exactly when it is none of those that are missed. -/
theorem special_refused_iff (ip : Ip) : (ip.Special → ip.isPublic = false) ↔ ¬ip.Missed := by
  constructor
  · intro h hmissed
    have hrefused := h hmissed.special
    rw [hmissed.isPublic] at hrefused
    exact absurd hrefused (by decide)
  · intro hknown hspecial
    exact hspecial.cases.resolve_right hknown

/-- The first address of the benchmarking range, and 127.0.0.1 by way of NAT64. -/
theorem not_special_refused :
    ¬((Ip.v4 198 18 0 1).Special → (Ip.v4 198 18 0 1).isPublic = false) ∧
      ¬((Ip.v6 #v[0x64, 0xff9b, 0, 0, 0, 0, 0x7f00, 1]).Special →
        (Ip.v6 #v[0x64, 0xff9b, 0, 0, 0, 0, 0x7f00, 1]).isPublic = false) := by
  have hbench : (Ip.v4 198 18 0 1).Special := by
    change Among 8 specialV4 [198, 18, 0, 1]
    decide
  have hnat64 : (Ip.v6 #v[0x64, 0xff9b, 0, 0, 0, 0, 0x7f00, 1]).Special := by
    refine .inr ⟨nat64, by simp, ?_⟩
    decide
  exact ⟨fun h => absurd (h hbench) (by decide), fun h => absurd (h hnat64) (by decide)⟩

end Ip

end MindOS.Web
