import MindOS.Text.Words

/-!
# The command policy and its verdicts

## The command policy

What `run_command` may do with a shell text: `classifyCommand` answers
`observe` (runs at once), `change` (asks first) or `forbidden` (never runs). The
definitions follow the source function by function; the tables are the source's.

The text is judged twice over. The forbidden forms are looked for in the whole
text, lower-cased and squeezed; the observe-only check then reads the original
text stage by stage, each stage by its program's name and that program's own
argument rule.
-/

namespace MindOS

/-- The verdict on a tool call. -/
inductive Policy where
  | observe
  | change
  | forbidden
  deriving DecidableEq, Repr

namespace Policy

/-- How restrictive a verdict is. -/
def rank : Policy → Nat
  | observe => 0
  | change => 1
  | forbidden => 2

instance : LE Policy := ⟨fun a b => a.rank ≤ b.rank⟩

instance (a b : Policy) : Decidable (a ≤ b) := inferInstanceAs (Decidable (a.rank ≤ b.rank))

@[simp] theorem observe_le (a : Policy) : observe ≤ a := Nat.zero_le _

@[simp] theorem le_forbidden (a : Policy) : a ≤ forbidden := by cases a <;> decide

theorem forbidden_le {a : Policy} : forbidden ≤ a ↔ a = forbidden := by cases a <;> decide

end Policy

/-- The `[policy]` section of the configuration, as far as verdicts read it. -/
structure PolicyConfig where
  /-- Run every "change" tool without confirmation. -/
  autopilot : Bool := false
  /-- Tool categories that never need confirmation. -/
  autopilotCategories : List Text := []
  /-- Extra read-only commands. -/
  extraObserveCommands : List Text := []

namespace Policy

/-! ### The tables -/

/-- Programs a run_command may execute without confirmation. -/
def observeCommands : List Text := [
  "ls", "cat", "head", "tail", "grep", "rg", "find", "wc", "du", "df", "free", "uptime", "uname",
  "id", "whoami", "hostname", "hostnamectl", "date", "lspci", "lsusb", "lsblk", "lscpu", "lsmod",
  "lsof", "dmesg", "journalctl", "systemctl", "loginctl", "nvidia-smi", "vulkaninfo", "glxinfo",
  "eglinfo", "wayland-info", "pacman", "checkupdates", "pactree", "paccache", "ip", "ss", "ping",
  "dig", "nmcli", "iw", "sensors", "nproc", "ps", "top", "pgrep", "pidof", "stat", "file",
  "which", "type", "env", "printenv", "readlink", "realpath", "sha256sum", "md5sum", "git",
  "cargo", "rustc", "python", "python3", "pip", "gcc", "clang", "make", "ldd", "objdump",
  "strings", "steam", "gamescope", "mangohud", "gamemoded", "gamemodelist", "protontricks", "wine",
  "winetricks", "flatpak", "getent", "true", "echo", "printf", "test", "sort", "uniq", "cut",
  "tr", "awk", "sed", "jq", "xargs", "diff", "cmp", "tree", "mount", "findmnt", "zramctl",
  "swapon", "sysctl", "modinfo", "udevadm", "bootctl", "efibootmgr", "fwupdmgr", "mkinitcpio",
  "dkms", "smartctl", "nvme", "hdparm", "fstrim", "timedatectl", "localectl", "resolvectl",
  "curl", "wget"]

/-- Texts that are never allowed anywhere in a command. -/
def forbiddenTexts : List Text := [
  "mkfs", "dd if=", "> /dev/sd", "> /dev/nvme", "of=/dev/sd", "of=/dev/nvme", "shred", "wipefs",
  "sgdisk --zap", "sgdisk -z", "blkdiscard", "parted", "fdisk", "cfdisk",
  "cryptsetup luksformat", "cryptsetup erase", "nvme format", "hdparm --security-erase",
  "btrfs subvolume delete /", "zpool destroy",
  "pacman -rns base", "pacman -r base", "pacman -rdd",
  "> /etc/fstab", "> /etc/passwd", "> /etc/shadow", "> /etc/pacman.conf",
  ":()\x7b", "kill -9 -1", "killall5", "pkill -9 -u root",
  "mind.jsonl", "systemctl mask mindd", "systemctl disable mindd", "systemctl mask greetd",
  "rm -rf /var/lib/mindos",
  "passwd root", "userdel", "chmod -r 777 /", "chown -r", "/dev/mem", "/dev/kmem", "usermod -l",
  "iptables -f", "nft flush ruleset", "ufw --force reset"]

/-- Paths an `rm` may not name. -/
def undeletable : List Text := [
  "/", "/*", "~", "$home", "/bin", "/boot", "/dev", "/etc", "/home", "/lib", "/lib64", "/opt",
  "/proc", "/root", "/run", "/sbin", "/srv", "/sys", "/usr", "/var", "/var/lib",
  "/var/lib/mindos", "/var/lib/pacman", "/var/cache"]

/-- Interpreters that will run whatever they are handed on standard input. -/
def interpreters : List Text := [
  "sh", "bash", "zsh", "fish", "dash", "ksh", "python", "python2", "python3", "perl", "ruby",
  "node"]

/-- Systemd services that must not be stopped by the model. -/
def protectedUnits : List Text := ["mindd", "greetd", "seatd", "systemd-", "dbus"]

/-! ### The forbidden forms -/

/-- What ends a stage: `|`, `;` or `&`. -/
def stageSep (c : Char) : Bool := c == '|' || c == ';' || c == '&'

/-- What ends a stage of a pipeline alone. -/
def pipeSep (c : Char) : Bool := c == '|'

/-- The last component of a program's path. -/
def programName (prog : Text) : Text := prog.afterLast '/'

/-- One operand of an `rm`, quotes and trailing slashes off. -/
def deletesTarget (w : Text) : Bool :=
  let target := (w.trimMatches fun c => c == '"' || c == '\'').rdropWhile (· == '/')
  let target : Text := if target.isEmpty then "/" else target
  undeletable.contains target

/-- The words `deletes_a_system_path` looks behind. -/
def deleteWrappers : List Text := ["sudo", "doas", "env"]

/-- The words `pipes_download_to_shell` looks behind. -/
def pipeWrappers : List Text := ["sudo", "doas", "env", "command", "exec"]

/-- The programs that download. -/
def downloaders : List Text := ["curl", "wget"]

/-- One stage of `deletes_a_system_path`, by its words. -/
def stageDeletes (stage : List Text) : Bool :=
  match stage.dropWhile deleteWrappers.contains with
  | [] => false
  | prog :: operands =>
      programName prog == "rm" &&
        operands.any fun w => !w.startsWith "-" && deletesTarget w

/-- An `rm` aimed at one of the undeletable paths. -/
def deletesASystemPath (cmd : Text) : Bool := (cmd.stageWords stageSep).any stageDeletes

/-- The program a pipeline stage runs, behind its wrappers. -/
def stageProgram (stage : List Text) : Text :=
  programName ((stage.find? fun w => !pipeWrappers.contains w).getD [])

/-- The loop of `pipes_download_to_shell` over the programs of the stages. -/
def downloadThenShell : Bool → List Text → Bool
  | _, [] => false
  | downloaded, prog :: progs =>
      if downloaded && interpreters.contains prog then true
      else downloadThenShell (downloaded || downloaders.contains prog) progs

/-- `curl … | sh`: a download executed sight unseen. -/
def pipesDownloadToShell (cmd : Text) : Bool :=
  downloadThenShell false ((cmd.stageWords pipeSep).map stageProgram)

/-- One of the forbidden texts stands in the command. -/
def hasForbiddenText (lower : Text) : Bool := forbiddenTexts.any lower.contains

/-- Redirections and command substitution. -/
def hasMutatingShell (cmd : Text) : Bool :=
  cmd.contains ">" || cmd.contains "$(" || cmd.contains "`" || cmd.contains "<("

/-! ### The argument rules -/

/-- The long options by which a download writes a file or sends a body. -/
def downloadWriteOptions : List Text := [
  "--output", "--output-dir", "--upload-file", "--form", "--form-string", "--data", "--data-raw",
  "--data-binary", "--data-ascii", "--data-urlencode", "--json", "--user", "--remote-name",
  "--remote-name-all", "--post301", "--post302", "--post303", "--post-data", "--post-file"]

/-- One word of bundled short options, with the word after it. -/
def shortOptionsWrite (w next : Text) : Bool :=
  if !w.startsWith "-" || w.startsWith "--" then false
  else
    let letters := (w.drop 1).takeWhile Char.isAlpha
    let tail := w.drop (1 + letters.length)
    let dest := if tail.isEmpty then next else tail
    letters.any fun c =>
      if c == 'o' || c == 'O' then dest != "-" else ['T', 'F', 'd', 'u'].contains c

/-- The loop over the words of a download. -/
def anyShortOptionWrites : List Text → Bool
  | [] => false
  | w :: ws => shortOptionsWrite w (ws.headD []) || anyShortOptionWrites ws

/-- A method other than GET named in two words. -/
def requestsOther : List Text → Bool
  | w :: v :: ws =>
      ((w == "-X" || w == "--request") && !v.eqIgnoreAsciiCase "get") || requestsOther (v :: ws)
  | _ => false

/-- A `curl` or `wget` that writes a file, uploads or sends a body. -/
def downloadWrites (words : List Text) : Bool :=
  anyShortOptionWrites words ||
    downloadWriteOptions.any (fun f => words.any fun w => w == f || w.startsWith (f ++ "=")) ||
    requestsOther words ||
    words.any fun w => w.startsWith "--request=" &&
      !Text.eqIgnoreAsciiCase (w.drop "--request=".length) "get"

/-- A program that is read-only but for some of its sub-commands. -/
def mutating (prog rest : Text) : Bool :=
  let is (name : Text) : Bool := prog == name
  let has (pat : Text) : Bool := rest.contains pat
  let hasWord (ws : List Text) : Bool := ws.any fun k => rest.words.any (· == k)
  if is "pacman" then
    (has "-S" && !has "-Ss" && !has "-Si" && !has "-Sl" && !has "-Sg") || has "-R" || has "-U"
  else if is "systemctl" then
    hasWord ["start", "stop", "restart", "enable", "disable", "mask", "unmask", "reboot",
      "poweroff", "kill", "daemon-reload", "set-default", "isolate"]
  else if is "git" then
    hasWord ["push", "reset", "clean", "checkout", "rebase", "merge", "commit", "rm", "stash"]
  else if is "cargo" then rest.startsWith "install" || rest.startsWith "publish"
  else if is "pip" then rest.startsWith "install" || rest.startsWith "uninstall"
  else if is "flatpak" then
    !rest.startsWith "list" && !rest.startsWith "info" && !rest.startsWith "search"
  else if is "nmcli" then
    has " up" || has " down" || has "add" || has "modify" || has "delete" || has "connect"
  else if is "ip" then hasWord ["add", "del", "set", "flush", "change", "replace"]
  else if is "sysctl" then has "-w" || has "="
  else if is "mount" then !rest.isEmpty
  else if is "swapon" then !has "--show" && !has "-s"
  else if is "fstrim" || is "hdparm" || is "mkinitcpio" || is "dkms" || is "efibootmgr" ||
      is "fwupdmgr" || is "bootctl" then
    !(has "-l" || has "status" || has "list" || has "get-" || (rest.isEmpty && is "bootctl"))
  else if is "sed" then has "-i"
  else if is "curl" || is "wget" then downloadWrites rest.words
  else if is "steam" || is "gamescope" || is "wine" || is "winetricks" || is "protontricks" then
    true
  else if is "timedatectl" || is "localectl" || is "hostnamectl" then rest.startsWith "set-"
  else if is "udevadm" then rest.startsWith "trigger" || rest.startsWith "control"
  else false

/-! ### The verdict -/

/-- The check of one nonempty stage: an observe-only program with arguments its
rule lets through. -/
def stageObserves (cfg : PolicyConfig) (stage : Text) : Bool :=
  let stage := (stage.trimStartMatches "sudo ").trim
  let prog := programName (stage.words.headD [])
  let allowed := observeCommands.contains prog || cfg.extraObserveCommands.contains prog
  allowed && !mutating prog (Text.unwords (stage.words.drop 1))

/-- The stages the check runs over: trimmed, the empty ones left out. -/
def stages (cmd : Text) : List Text :=
  ((cmd.splitOnP stageSep).map Text.trim).filter fun s => !s.isEmpty

/-- The text the forbidden forms are looked for in. -/
def normalized (cmd : Text) : Text := cmd.toLowercase.squeeze

/-- A forbidden form of any of the three kinds, in a normalized text. -/
def isForbidden (lower : Text) : Bool :=
  hasForbiddenText lower || pipesDownloadToShell lower || deletesASystemPath lower

def classifyCommand (cmd : Text) (cfg : PolicyConfig) : Policy :=
  if isForbidden (normalized cmd) then forbidden
  else if hasMutatingShell cmd then change
  else if (stages cmd).all (stageObserves cfg) then observe
  else change

def protectedUnit (unit : Text) : Bool := protectedUnits.any unit.startsWith

/-- Should this call run only after the user confirms it? -/
def needsConfirmation (policy : Policy) (category : Text) (autopilot : Bool)
    (cfg : PolicyConfig) : Bool :=
  match policy with
  | observe => false
  | forbidden => true
  | change => !(autopilot || cfg.autopilot || cfg.autopilotCategories.contains category)

end Policy
end MindOS

/-!
## Reading a verdict

Which checks decide a verdict, and on what part of the command each of them
depends: the forbidden forms on the words of the stages of the lower-cased text,
the observe-only check on the stages of the text as it stands.
-/

namespace MindOS.Policy

open Text

/-! ### What the forbidden forms read -/

theorem not_stageSep_of_whitespace {c : Char} (h : isWhitespace c = true) :
    stageSep c = false := by
  by_contra hsep
  simp only [stageSep, Bool.not_eq_false, Bool.or_eq_true, beq_iff_eq] at hsep
  obtain (rfl | rfl) | rfl := hsep <;> exact absurd h (by decide)

theorem not_pipeSep_of_whitespace {c : Char} (h : isWhitespace c = true) :
    pipeSep c = false := by
  have := not_stageSep_of_whitespace h
  simp_all [stageSep, pipeSep]

theorem stageDeletes_cons {prog : Text} (hwrap : deleteWrappers.contains prog = false)
    (hrm : programName prog ≠ "rm".toList) (ws : List Text) :
    stageDeletes (prog :: ws) = false := by
  simp only [stageDeletes, List.dropWhile_cons, hwrap, Bool.false_eq_true, if_false,
    beq_eq_false_iff_ne.mpr hrm, Bool.false_and]

theorem stageProgram_cons {prog : Text} (hwrap : pipeWrappers.contains prog = false)
    (ws : List Text) : stageProgram (prog :: ws) = programName prog := by
  simp only [stageProgram, List.find?_cons, hwrap, Bool.not_false, Option.getD_some]

theorem stageProgram_append {stage : List Text} {w : Text} (hw : w ∈ stage)
    (hwrap : pipeWrappers.contains w = false) (ws : List Text) :
    stageProgram (stage ++ ws) = stageProgram stage := by
  have hfound : (stage.find? fun w => !pipeWrappers.contains w).isSome := by
    rw [List.find?_isSome]
    exact ⟨w, hw, by simpa using hwrap⟩
  obtain ⟨prog, hprog⟩ := Option.isSome_iff_exists.mp hfound
  simp only [stageProgram, List.find?_append, hprog, Option.some_or]

/-- The programs of the `|`-stages of a command. -/
def stagePrograms (cmd : Text) : List Text :=
  (cmd.toLowercase.stageWords pipeSep).map stageProgram

theorem pipesDownloadToShell_normalized (cmd : Text) :
    pipesDownloadToShell (normalized cmd) = downloadThenShell false (stagePrograms cmd) := by
  rw [pipesDownloadToShell, normalized,
    stageWords_squeeze fun _ => not_pipeSep_of_whitespace]
  rfl

theorem deletesASystemPath_normalized (cmd : Text) :
    deletesASystemPath (normalized cmd) =
      (cmd.toLowercase.stageWords stageSep).any stageDeletes := by
  rw [deletesASystemPath, normalized, stageWords_squeeze fun _ => not_stageSep_of_whitespace]

/-- The forbidden forms that are not pipelines. -/
def ruinous (cmd : Text) : Bool :=
  hasForbiddenText (normalized cmd) || deletesASystemPath (normalized cmd)

/-- The verdict of the stage-by-stage check alone. -/
def observesAll (cmd : Text) (cfg : PolicyConfig) : Bool :=
  !hasMutatingShell cmd && (stages cmd).all (stageObserves cfg)

theorem isForbidden_normalized (cmd : Text) :
    isForbidden (normalized cmd) = true ↔
      ruinous cmd = true ∨ downloadThenShell false (stagePrograms cmd) = true := by
  rw [← pipesDownloadToShell_normalized]
  simp only [isForbidden, ruinous, Bool.or_eq_true]
  tauto

theorem classifyCommand_eq_forbidden {cmd : Text} {cfg : PolicyConfig} :
    classifyCommand cmd cfg = forbidden ↔ isForbidden (normalized cmd) = true := by
  cases hf : isForbidden (normalized cmd) with
  | true => simp [classifyCommand, hf]
  | false =>
      cases hm : hasMutatingShell cmd <;>
        cases ha : (stages cmd).all (stageObserves cfg) <;> simp [classifyCommand, hf, hm, ha]

theorem classifyCommand_of_not_forbidden {cmd : Text} {cfg : PolicyConfig}
    (h : isForbidden (normalized cmd) = false) :
    classifyCommand cmd cfg = if observesAll cmd cfg then observe else change := by
  cases hm : hasMutatingShell cmd <;> simp [classifyCommand, observesAll, h, hm]

theorem classifyCommand_eq_observe {cmd : Text} {cfg : PolicyConfig} :
    classifyCommand cmd cfg = observe ↔
      isForbidden (normalized cmd) = false ∧ observesAll cmd cfg = true := by
  cases hf : isForbidden (normalized cmd) with
  | true => simp [classifyCommand_eq_forbidden.mpr hf]
  | false =>
      rw [classifyCommand_of_not_forbidden hf]
      cases observesAll cmd cfg <;> simp

theorem classifyCommand_le {a j : Text} {cfg : PolicyConfig}
    (ha : isForbidden (normalized a) = false)
    (h : observesAll j cfg = true → observesAll a cfg = true) :
    classifyCommand a cfg ≤ classifyCommand j cfg := by
  by_cases hj : classifyCommand j cfg = observe
  · have hobserves := h (classifyCommand_eq_observe.mp hj).2
    rw [classifyCommand_of_not_forbidden ha, if_pos hobserves]
    exact observe_le _
  · rw [classifyCommand_of_not_forbidden ha]
    generalize classifyCommand j cfg = v at hj ⊢
    cases v <;> first | exact absurd rfl hj | (split <;> decide)

end MindOS.Policy
