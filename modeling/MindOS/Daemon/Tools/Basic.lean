import MindOS.Daemon.Policy.Basic
import MindOS.Json.Basic

/-!
# Configuration and tools of the daemon

## The daemon's configuration

The sections of `/etc/mindos/mind.toml` that verdicts, conversations, web access
and updates read, with the defaults of the source.
-/

namespace MindOS

structure ModelConfig where
  context : Nat := 32768
  maxTokens : Nat := 4096

structure DaemonConfig where
  maxToolRounds : Nat := 16

structure UpdatesConfig where
  /-- Ask the model to assess each new set of updates. -/
  assess : Bool := true

structure WebConfig where
  /-- Let the Mind reach the internet at all. -/
  enabled : Bool := true
  userAgent : Text := "Mozilla/5.0 (X11; Linux x86_64) MindOS-Mind/1.0"
  /-- Seconds one page may take. -/
  timeoutSecs : Nat := 25
  /-- Redirect hops. -/
  maxRedirects : Nat := 5
  /-- Allow this machine and the local network. -/
  allowPrivate : Bool := false
  /-- Hosts the Mind must not fetch. -/
  denyHosts : List Text := []
  /-- Seconds a download may take, and how large it may be. -/
  downloadTimeoutSecs : Nat := 900
  maxDownloadBytes : Nat := 4000000000

structure Config where
  model : ModelConfig := {}
  daemon : DaemonConfig := {}
  policy : PolicyConfig := {}
  updates : UpdatesConfig := {}
  web : WebConfig := {}

end MindOS

/-!
## The tools and their verdicts

The table of tools with the policy and the category of each, `policyFor` for the
tools whose verdict depends on the arguments, and the shell texts that
`execute` builds for the package and service tools.
-/

namespace MindOS.Tools

open Text

/-- One tool, without its description and parameter schema. -/
structure ToolDef where
  name : Text
  policy : Policy
  category : Text
  deriving DecidableEq

/-- The tools that are always there. -/
def localTools : List ToolDef := [
  ⟨"system_info", .observe, "info"⟩, ⟨"gpu_info", .observe, "info"⟩,
  ⟨"list_packages", .observe, "packages"⟩, ⟨"search_packages", .observe, "packages"⟩,
  ⟨"package_info", .observe, "packages"⟩, ⟨"check_updates", .observe, "update"⟩,
  ⟨"apply_updates", .change, "update"⟩, ⟨"install_packages", .change, "packages"⟩,
  ⟨"remove_packages", .change, "packages"⟩, ⟨"service_status", .observe, "services"⟩,
  ⟨"service_control", .change, "services"⟩, ⟨"journal", .observe, "info"⟩,
  ⟨"read_file", .observe, "files"⟩, ⟨"write_file", .change, "files"⟩,
  ⟨"disk_usage", .observe, "info"⟩, ⟨"run_command", .change, "shell"⟩,
  ⟨"set_kernel_parameter", .change, "boot"⟩, ⟨"reboot", .change, "power"⟩,
  ⟨"arch_news", .observe, "update"⟩, ⟨"update_status", .observe, "update"⟩,
  ⟨"health_check", .observe, "info"⟩, ⟨"notices", .observe, "info"⟩,
  ⟨"list_snapshots", .observe, "boot"⟩, ⟨"rollback", .change, "boot"⟩,
  ⟨"performance_mode", .observe, "perf"⟩, ⟨"dlss", .observe, "games"⟩,
  ⟨"mind_sleep", .observe, "mind"⟩]

/-- The tools that need web access. -/
def webTools : List ToolDef := [
  ⟨"web_search", .observe, "web"⟩, ⟨"web_fetch", .observe, "web"⟩,
  ⟨"arch_wiki", .observe, "web"⟩, ⟨"wikipedia", .observe, "web"⟩,
  ⟨"protondb", .observe, "games"⟩, ⟨"download_file", .change, "web"⟩,
  ⟨"open_url", .change, "desktop"⟩]

def definitions (cfg : Config) : List ToolDef :=
  if cfg.web.enabled then localTools ++ webTools else localTools

def find (defs : List ToolDef) (name : Text) : Option ToolDef :=
  defs.find? fun d => d.name == name

/-- Packages remove_packages must not touch. -/
def protectedPackages : List Text := [
  "base", "linux", "linux-lts", "linux-zen", "systemd", "pacman", "mindos-base", "mindd",
  "mindwm", "glibc"]

/-- The directories write_file may write to. -/
def writableRoots : List Text := ["/etc/", "/boot/", "/home/", "/var/lib/mindos/", "/usr/local/"]

/-- The actions that service_control refuses on a protected unit. -/
def refusedActions : List Text := ["stop", "disable", "disable-now"]

/-- Verdict on a run of dlss, by its first word. -/
def dlssPolicy (verb : Text) : Policy :=
  if (["scan", "games", "library", "versions", "kinds"] : List Text).contains verb then .observe
  else if (["download", "swap", "restore", "import", "delete"] : List Text).contains verb then
    .change
  else .forbidden

/-- Policy for a specific call. -/
def policyFor (d : ToolDef) (args : Json) (cfg : Config) : Policy :=
  if d.name = "run_command".toList then
    Policy.classifyCommand ((args.getStr "command").getD []) cfg.policy
  else if d.name = "service_control".toList then
    let unit := (args.getStr "unit").getD []
    let action := (args.getStr "action").getD []
    if Policy.protectedUnit unit && refusedActions.contains action then .forbidden else .change
  else if d.name = "write_file".toList then
    let p := (args.getStr "path").getD []
    if writableRoots.any p.startsWith then .change else .forbidden
  else if d.name = "performance_mode".toList then
    if ((args.getStr "mode").map fun m => !m.isEmpty).getD false then .change else .observe
  else if d.name = "dlss".toList then
    dlssPolicy ((words ((args.getStr "args").getD []).trim).headD [])
  else if d.name = "remove_packages".toList then
    let pkgs := (((args.get "packages").asArray).map Json.strings).getD []
    if pkgs.any protectedPackages.contains then .forbidden else .change
  else d.policy

/-! ### The shell texts -/

/-- Single quotes around a text, with `'\''` for a quote inside it. -/
def shellQuote (s : Text) : Text :=
  "'".toList ++ s.replaceChar '\'' "'\\''" ++ "'".toList

/-- A character a package name may have. -/
def packageChar (c : Char) : Bool := c.isAlphanum || "+-._@".toList.contains c

theorem packageChar_forall {P : Char → Prop} (hascii : ∀ n < 128,
    packageChar (Char.ofNat n) = true → P (Char.ofNat n)) {c : Char} (h : packageChar c = true) :
    P c := by
  have hp : ∀ c, packageChar c = true → c.isAlphanum = true ∨ c ∈ "+-._@".toList := fun c hc => by
    simpa [packageChar] using hc
  exact forall_of_ascii hp (by decide) hascii h

/-- The names of a package list: strings only, trimmed, the empty ones left out. -/
def packageNames (items : List Json) : List Text :=
  ((Json.strings items).map trim).filter fun s => !s.isEmpty

/-- The package list as one text, or why it is refused. -/
def pkgList (args : Json) : Except Text Text :=
  match (args.get "packages").asArray with
  | none => .error "packages must be an array".toList
  | some items =>
      let names := packageNames items
      if names.isEmpty then .error "no packages given".toList
      else
        match names.find? fun n => !n.all packageChar with
        | some n =>
            .error ("\"".toList ++ n ++
              "\" is not a package name (letters, digits, + - . _ @ only)".toList)
        | none => .ok (unwords names)

/-- The actions that systemctl gets as they are. -/
def plainActions : List Text := ["start", "stop", "restart", "enable", "disable"]

/-- The first half of what service_control runs, or why it is refused. -/
def serviceCall (action unit : Text) : Except Text Text :=
  if action = "enable-now".toList then
    .ok ("systemctl enable --now -- ".toList ++ shellQuote unit)
  else if action = "disable-now".toList then
    .ok ("systemctl disable --now -- ".toList ++ shellQuote unit)
  else if plainActions.contains action then
    .ok ("systemctl ".toList ++ action ++ " -- ".toList ++ shellQuote unit)
  else .error ("unknown action ".toList ++ action)

/-- The command service_control runs, or why it is refused. -/
def serviceControlCommand (args : Json) : Except Text Text :=
  match args.getStr "unit", args.getStr "action" with
  | none, _ => .error "unit required".toList
  | some _, none => .error "action required".toList
  | some unit, some action =>
      (serviceCall action unit).map fun c =>
        c ++ " && systemctl status --no-pager -n 5 -- ".toList ++ shellQuote unit

/-- The command remove_packages runs, or why it is refused. -/
def removePackagesCommand (args : Json) : Except Text Text :=
  (pkgList args).map fun list => "mindos-pkg remove ".toList ++ list

/-- The command install_packages runs while the AUR switch is `aur`. -/
def installPackagesCommand (aur : Bool) (args : Json) : Except Text Text :=
  (pkgList args).map fun list =>
    "mindos-pkg install".toList ++ (if aur then " --aur".toList else []) ++ ' ' :: list

/-- The names a call asks for, as the list check reads them. -/
def requestedNames (args : Json) : List Text :=
  (((args.get "packages").asArray).map packageNames).getD []

theorem pkgList_eq_ok {args : Json} {list : Text} (h : pkgList args = .ok list) :
    requestedNames args ≠ [] ∧
      (∀ n ∈ requestedNames args, n ≠ [] ∧ ∀ c ∈ n, packageChar c = true) ∧
      list = unwords (requestedNames args) := by
  simp only [pkgList] at h
  split at h
  case h_1 => cases h
  case h_2 items hitems =>
    have hnames : requestedNames args = packageNames items := by rw [requestedNames, hitems]; rfl
    rw [hnames]
    split at h
    case isTrue => cases h
    case isFalse hne =>
      split at h
      case h_1 => cases h
      case h_2 hall =>
        refine ⟨by simpa using hne, fun n hn => ⟨?_, ?_⟩, (Except.ok.inj h).symm⟩
        · simpa using (List.mem_filter.mp hn).2
        · simpa using List.find?_eq_none.mp hall n hn

theorem isWord_of_pkgList {args : Json} {list : Text} (h : pkgList args = .ok list) :
    ∀ n ∈ requestedNames args, IsWord n := by
  intro n hn
  obtain ⟨hne, hchars⟩ := (pkgList_eq_ok h).2.1 n hn
  exact ⟨hne, fun c hc =>
    packageChar_forall (P := fun c => isWhitespace c = false) (by decide) (hchars c hc)⟩

end MindOS.Tools
