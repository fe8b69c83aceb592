import UnidriveMount.Ipc.Client
import UnidriveMount.Fs.Types
import UnidriveMount.Lib.Options

/-!
# The command line

`cli.rs`: the words after the program's name are options with their values, read from the left. The first
word that is no option, or an option without a value, ends the reading: with the usage text, with the
version, or with an error. `parse_args_iff` says for each result on which command lines it is given; a
command line that is accepted can be written down again (`parse_args_words`).
-/

namespace UnidriveMount

open Lib

/-! ## Results -/

/-- The options that take a value. -/
inductive CliOption : Type where
  | mount
  | ipc
  | cache
  | lock
  | ipcTokenFile
  | profile
  deriving DecidableEq, Repr

/-- The word that names an option. -/
def CliOption.name : CliOption → Str
  | mount => "--mount".toList
  | ipc => "--ipc".toList
  | cache => "--cache".toList
  | lock => "--lock".toList
  | ipcTokenFile => "--ipc-token-file".toList
  | profile => "--profile".toList

/-- The options, in the order of the source. -/
def CliOption.all : List CliOption := [mount, ipc, cache, lock, ipcTokenFile, profile]

/-- The option that a word names. -/
def CliOption.ofWord (word : Str) : Option CliOption := all.find? fun opt => opt.name = word

/-- `USAGE`. -/
def usage : Str :=
  ("Usage: unidrive-mount --mount <path> --ipc <socket> [--cache <path>] [--lock <path>]\n" ++
    "                       [--ipc-token-file <path> --profile <name>]\n" ++
    "       unidrive-mount --version\n" ++
    "\n" ++
    "Options:\n" ++
    "  --mount <path>   Filesystem mount point (an existing empty directory).\n" ++
    "  --ipc <socket>   Unix-domain-socket path to the unidrive JVM IpcServer.\n" ++
    "  --cache <path>   LocalCache root for crash-recovery scan at startup.\n" ++
    "                   Defaults to $XDG_CACHE_HOME/unidrive/hydration, or\n" ++
    "                   $HOME/.cache/unidrive/hydration if XDG_CACHE_HOME unset.\n" ++
    "  --lock <path>    Per-profile lock file. When supplied, the co-daemon\n" ++
    "                   acquires its own flock(2) on this path for the session,\n" ++
    "                   closing the kill -9 race with the JVM-side ProcessLock.\n" ++
    "  --ipc-token-file <path>\n" ++
    "                   The profile's IPC token file (ipc.token, scope full).\n" ++
    "                   Read again on every connect; every connection runs\n" ++
    "                   the IPC protocol-2 handshake with it. Requires --profile.\n" ++
    "  --profile <name> Profile name exactly as in config.toml (part of the\n" ++
    "                   handshake proof).\n" ++
    "  --version        Print the version and the IPC protocol, then exit.\n" ++
    "  --help           Show this message and exit.\n").toList

/-- What a command line asks for. A token file comes with the profile it is for. -/
structure Cli : Type where
  mount : Str
  ipc : Str
  cache : Str
  lock : Option Str
  ipcTokenFile : Option Str
  profile : Option Str
  hasProfile : ipcTokenFile.isSome = true → profile ≠ none

/-- `CliError`. -/
inductive CliError : Type where
  | usage (msg : Str)
  | help (msg : Str)
  | version (msg : Str)
  deriving DecidableEq, Repr

/-! ## The parser -/

/-- What the build put into the program. -/
structure Build : Type where
  version : Str
  commit : Str
  dirty : Bool
  tagged : Bool

/-- `version::compose`. -/
def Build.compose (b : Build) : Str :=
  if b.tagged then b.version
  else if b.dirty then b.version ++ '+' :: b.commit ++ ".dirty".toList
  else b.version ++ '+' :: b.commit

/-- What `--version` prints. -/
def Build.versionMessage (b : Build) : Str :=
  "unidrive-mount ".toList ++ b.compose ++ " ipc-protocol ".toList ++ natText protocol ++ "\n".toList

/-- The environment variables that are read. -/
structure Environment : Type where
  xdgCacheHome : Option Str
  home : Option Str
  deriving DecidableEq, Repr

/-- `default_cache_root`. -/
def defaultCacheRoot (env : Environment) : Str :=
  match env.xdgCacheHome with
  | some x => joinPath (joinPath x "unidrive".toList) "hydration".toList
  | none =>
    match env.home with
    | some h => joinPath (joinPath (joinPath h ".cache".toList) "unidrive".toList) "hydration".toList
    | none => ".cache/unidrive/hydration".toList

/-- A usage error. -/
def usageError {α : Type} (msg : Str) : Except CliError α := .error (.usage (msg ++ '\n' :: usage))

/-- An option without a value. -/
def requiresValue (opt : CliOption) : Str := opt.name ++ " requires a value".toList

/-- A word that is no option. -/
def unknownArgument (word : Str) : Str := "unknown argument: ".toList ++ word

/-- An option that must be given. -/
def missingRequired (opt : CliOption) : Str := "missing required ".toList ++ opt.name

/-- A token file without a profile. -/
def tokenFileRequiresProfile : Str := "--ipc-token-file requires --profile".toList

/-- The loop of `parse_args`, with the values read so far. -/
def parseLoop (b : Build) (slots : CliOption → Option Str) : List Str → Except CliError (CliOption → Option Str)
  | [] => .ok slots
  | arg :: rest =>
    if arg = "--help".toList ∨ arg = "-h".toList then .error (.help usage)
    else if arg = "--version".toList then .error (.version b.versionMessage)
    else match CliOption.ofWord arg with
      | none => usageError (unknownArgument arg)
      | some opt =>
        match rest with
        | [] => usageError (requiresValue opt)
        | value :: rest => parseLoop b (Function.update slots opt (some value)) rest

/-- `ok_or_else` on an option that must be given. -/
def required (opt : CliOption) : Option Str → Except CliError Str
  | some value => .ok value
  | none => usageError (missingRequired opt)

/-- The end of `parse_args`: what the values ask for. -/
def settle (env : Environment) (slots : CliOption → Option Str) : Except CliError Cli := do
  let mount ← required .mount (slots .mount)
  let ipc ← required .ipc (slots .ipc)
  if h : (slots .ipcTokenFile).isSome = true ∧ slots .profile = none then
    usageError tokenFileRequiresProfile
  else
    let cache := (slots .cache).getD (defaultCacheRoot env)
    return ⟨mount, ipc, cache, slots .lock, slots .ipcTokenFile, slots .profile,
      fun hfile hprofile => h ⟨hfile, hprofile⟩⟩

/-- `parse_args`. -/
def parseArgs (b : Build) (env : Environment) (argv : List Str) : Except CliError Cli := do
  let slots ← parseLoop b (fun _ => none) argv.tail
  settle env slots

/-! ## Reading options -/

/-- The options of the program. -/
def cliOptions : Options Str CliOption where
  name := CliOption.name
  ofWord := CliOption.ofWord
  ofWord_eq_some {word opt} := by
    constructor
    · intro h
      have hname := List.find?_some h
      exact of_decide_eq_true hname
    · rintro rfl
      cases opt <;> decide

theorem CliOption.name_not_flag (opt : CliOption) :
    ¬ (opt.name = "--help".toList ∨ opt.name = "-h".toList) ∧ opt.name ≠ "--version".toList := by
  cases opt <;> decide

/-- What the loop says at a word where it stops. -/
def stopsAt (b : Build) (word : Str) : CliError :=
  if word = "--help".toList ∨ word = "-h".toList then .help usage
  else if word = "--version".toList then .version b.versionMessage
  else match CliOption.ofWord word with
    | none => .usage (unknownArgument word ++ '\n' :: usage)
    | some opt => .usage (requiresValue opt ++ '\n' :: usage)

section
variable {b : Build} {env : Environment} {slots : CliOption → Option Str} {given : List (CliOption × Str)}
  {rest argv : List Str}

/-- The loop stops at words that do not begin with an option and its value. -/
theorem parseLoop_unread {word : Str} (h : cliOptions.Unread (word :: rest)) :
    parseLoop b slots (word :: rest) = .error (stopsAt b word) := by
  unfold parseLoop stopsAt
  split
  · rfl
  split
  · rfl
  cases hword : CliOption.ofWord word with
  | none => rfl
  | some opt =>
    cases rest with
    | nil => rfl
    | cons value rest =>
      have hnone : CliOption.ofWord word = none := h
      rw [hnone] at hword
      cases hword

/-- The loop takes an option with its value. -/
theorem parseLoop_option (opt : CliOption) (value : Str) (rest : List Str) :
    parseLoop b slots (opt.name :: value :: rest) =
      parseLoop b (Function.update slots opt (some value)) rest := by
  have hword : CliOption.ofWord opt.name = some opt := cliOptions.ofWord_name opt
  obtain ⟨hhelp, hversion⟩ := opt.name_not_flag
  rw [parseLoop, if_neg hhelp, if_neg hversion, hword]

/-- The loop reads the options, and keeps the value given last for each. -/
theorem parseLoop_words (given : List (CliOption × Str)) (rest : List Str) :
    parseLoop b slots (cliOptions.words given ++ rest) =
      parseLoop b (fun opt => (Options.last opt given).or (slots opt)) rest := by
  induction given generalizing slots with
  | nil => rfl
  | cons g given ih =>
    obtain ⟨opt, value⟩ := g
    have hslots : (fun k => (Options.last k given).or (Function.update slots opt (some value) k)) =
        fun k => (Options.last k ((opt, value) :: given)).or (slots k) := by
      funext k
      rw [Options.last_cons, Option.or_assoc, Function.update_apply]
      split <;> simp
    calc parseLoop b slots (cliOptions.words ((opt, value) :: given) ++ rest)
        = parseLoop b (Function.update slots opt (some value)) (cliOptions.words given ++ rest) :=
          parseLoop_option opt value _
      _ = parseLoop b (fun k => (Options.last k ((opt, value) :: given)).or (slots k)) rest := by
          rw [ih, hslots]

/-- `parse_args` on options and nothing else. -/
theorem parseArgs_of_words (hargv : argv.tail = cliOptions.words given) :
    parseArgs b env argv = settle env fun opt => Options.last opt given := by
  have hloop : parseLoop b (fun _ => none) (cliOptions.words given ++ []) = _ := parseLoop_words given []
  rw [List.append_nil] at hloop
  simp only [Option.or_none] at hloop
  rw [parseArgs, hargv, hloop]
  rfl

/-- `parse_args` on options and words that do not begin with an option and its value. -/
theorem parseArgs_of_unread {word : Str} (hargv : argv.tail = cliOptions.words given ++ word :: rest)
    (h : cliOptions.Unread (word :: rest)) : parseArgs b env argv = .error (stopsAt b word) := by
  rw [parseArgs, hargv, parseLoop_words, parseLoop_unread h]
  rfl

end

/-! ## What a command line means -/

/-- The options ask for this. -/
structure Asks (env : Environment) (given : List (CliOption × Str)) (cli : Cli) : Prop where
  mount : Options.last .mount given = some cli.mount
  ipc : Options.last .ipc given = some cli.ipc
  cache : cli.cache = (Options.last .cache given).getD (defaultCacheRoot env)
  lock : cli.lock = Options.last .lock given
  ipcTokenFile : cli.ipcTokenFile = Options.last .ipcTokenFile given
  profile : cli.profile = Options.last .profile given

/-- What is wrong with a command line: the options `given` and the words after them. -/
inductive Complaint (given : List (CliOption × Str)) : List Str → Str → Prop where
  | requiresValue (opt : CliOption) : Complaint given [opt.name] (requiresValue opt)
  | unknown {word : Str} (rest : List Str) (hname : ∀ opt : CliOption, opt.name ≠ word)
      (hhelp : word ≠ "--help".toList ∧ word ≠ "-h".toList) (hversion : word ≠ "--version".toList) :
      Complaint given (word :: rest) (unknownArgument word)
  | noMount (hm : Options.last .mount given = none) : Complaint given [] (missingRequired .mount)
  | noIpc (hm : Options.last .mount given ≠ none) (hi : Options.last .ipc given = none) :
      Complaint given [] (missingRequired .ipc)
  | noProfile (hm : Options.last .mount given ≠ none) (hi : Options.last .ipc given ≠ none)
      (hfile : Options.last .ipcTokenFile given ≠ none) (hprofile : Options.last .profile given = none) :
      Complaint given [] tokenFileRequiresProfile

/-- The command lines, by what they mean. -/
inductive Means (b : Build) (env : Environment) : List Str → Except CliError Cli → Prop where
  | asks {given : List (CliOption × Str)} {cli : Cli} (h : Asks env given cli) :
      Means b env (cliOptions.words given) (.ok cli)
  | help (given : List (CliOption × Str)) {word : Str} (rest : List Str)
      (hword : word = "--help".toList ∨ word = "-h".toList) :
      Means b env (cliOptions.words given ++ word :: rest) (.error (.help usage))
  | version (given : List (CliOption × Str)) (rest : List Str) :
      Means b env (cliOptions.words given ++ "--version".toList :: rest) (.error (.version b.versionMessage))
  | wrong {given : List (CliOption × Str)} {rest : List Str} {msg : Str} (h : Complaint given rest msg) :
      Means b env (cliOptions.words given ++ rest) (usageError msg)

section
variable {b : Build} {env : Environment} {given : List (CliOption × Str)} {rest argv : List Str}
  {msg : Str} {cli : Cli} {res : Except CliError Cli}

theorem settle_of_asks (h : Asks env given cli) :
    settle env (fun opt => Options.last opt given) = .ok cli := by
  obtain ⟨mount, ipc, cache, lock, ipcTokenFile, profile, hasProfile⟩ := cli
  obtain ⟨hm, hi, rfl, rfl, rfl, rfl⟩ := h
  have hok : ¬ ((Options.last .ipcTokenFile given).isSome = true ∧ Options.last .profile given = none) :=
    fun h => hasProfile h.1 h.2
  unfold settle
  dsimp only at hm hi ⊢
  rw [hm, hi]
  exact dif_neg hok

theorem settle_of_complaint (h : Complaint given [] msg) :
    settle env (fun opt => Options.last opt given) = usageError msg := by
  unfold settle
  dsimp only
  cases h with
  | noMount hm =>
    rw [hm]
    rfl
  | noIpc hm hi =>
    obtain ⟨mount, hm⟩ := Option.ne_none_iff_exists'.1 hm
    rw [hm, hi]
    rfl
  | noProfile hm hi hfile hprofile =>
    obtain ⟨mount, hm⟩ := Option.ne_none_iff_exists'.1 hm
    obtain ⟨ipc, hi⟩ := Option.ne_none_iff_exists'.1 hi
    rw [hm, hi]
    exact dif_pos ⟨Option.isSome_iff_ne_none.2 hfile, hprofile⟩

/-- The options ask for something, or something is wrong with them. -/
theorem asks_or_complaint (env : Environment) (given : List (CliOption × Str)) :
    (∃ cli, Asks env given cli) ∨ ∃ msg, Complaint given [] msg := by
  cases hm : Options.last .mount given with
  | none => exact .inr ⟨_, .noMount hm⟩
  | some mount =>
    have hmount : Options.last .mount given ≠ none := by simp [hm]
    cases hi : Options.last .ipc given with
    | none => exact .inr ⟨_, .noIpc hmount hi⟩
    | some ipc =>
      have hipc : Options.last .ipc given ≠ none := by simp [hi]
      by_cases hok : (Options.last .ipcTokenFile given).isSome = true → Options.last .profile given ≠ none
      · exact .inl ⟨⟨mount, ipc, _, _, _, _, hok⟩, hm, hi, rfl, rfl, rfl, rfl⟩
      · obtain ⟨hfile, hprofile⟩ := Classical.not_imp.1 hok
        exact .inr ⟨_, .noProfile hmount hipc (Option.isSome_iff_ne_none.1 hfile) (not_not.1 hprofile)⟩

theorem ofWord_eq_none {word : Str} (hname : ∀ opt : CliOption, opt.name ≠ word) :
    CliOption.ofWord word = none := by
  refine Option.eq_none_iff_forall_ne_some.2 fun opt h => hname opt ?_
  exact cliOptions.ofWord_eq_some.1 h

theorem unread_of_ne {word : Str} (hname : ∀ opt : CliOption, opt.name ≠ word) (rest : List Str) :
    cliOptions.Unread (word :: rest) := by
  cases rest with
  | nil => trivial
  | cons => exact ofWord_eq_none hname

theorem Complaint.unread (h : Complaint given rest msg) : cliOptions.Unread rest := by
  cases h with
  | requiresValue | noMount | noIpc | noProfile => trivial
  | unknown rest hname => exact unread_of_ne hname rest

theorem Complaint.stopsAt {word : Str} (h : Complaint given (word :: rest) msg) :
    stopsAt b word = .usage (msg ++ '\n' :: usage) := by
  cases h with
  | requiresValue opt =>
    obtain ⟨hhelp, hversion⟩ := opt.name_not_flag
    have hword : CliOption.ofWord opt.name = some opt := cliOptions.ofWord_name opt
    rw [UnidriveMount.stopsAt, if_neg hhelp, if_neg hversion, hword]
  | unknown rest hname hhelp hversion =>
    rw [UnidriveMount.stopsAt, if_neg (not_or.2 hhelp), if_neg hversion, ofWord_eq_none hname]

/-- Where the loop stops the command line has the meaning that the loop gives it. -/
theorem means_stopsAt {word : Str} (given : List (CliOption × Str))
    (hunread : cliOptions.Unread (word :: rest)) :
    Means b env (cliOptions.words given ++ word :: rest) (.error (stopsAt b word)) := by
  unfold stopsAt
  split
  · next hhelp => exact .help given rest hhelp
  split
  · next hversion =>
    subst hversion
    exact .version given rest
  next hhelp hversion =>
  cases hword : CliOption.ofWord word with
  | none =>
    refine .wrong (.unknown rest (fun opt hname => ?_) (not_or.1 hhelp) hversion)
    cases hword.symm.trans (cliOptions.ofWord_eq_some.2 hname)
  | some opt =>
    cases rest with
    | nil =>
      obtain rfl := cliOptions.ofWord_eq_some.1 hword
      exact .wrong (.requiresValue opt)
    | cons value rest => cases hword.symm.trans hunread

/-- **What `parse_args` returns is what the command line means.** The words after the program's name are
options with their values, of which the last value counts, up to the first word that does not begin an
option with a value; `Means` says for each result which command lines have it. -/
theorem parse_args_iff : parseArgs b env argv = res ↔ Means b env argv.tail res := by
  constructor
  · rintro rfl
    have hargv := (cliOptions.words_read argv.tail).symm
    have hunread := cliOptions.unread_read argv.tail
    generalize cliOptions.read argv.tail = read at hargv hunread
    obtain ⟨given, rest⟩ := read
    cases rest with
    | nil =>
      rw [List.append_nil] at hargv
      rw [parseArgs_of_words hargv, hargv]
      rcases asks_or_complaint env given with ⟨cli, hasks⟩ | ⟨msg, hwrong⟩
      · rw [settle_of_asks hasks]
        exact .asks hasks
      · rw [settle_of_complaint hwrong, ← List.append_nil (cliOptions.words given)]
        exact .wrong hwrong
    | cons word rest =>
      rw [parseArgs_of_unread hargv hunread, hargv]
      exact means_stopsAt given hunread
  · intro h
    generalize hargv : argv.tail = words at h
    cases h with
    | asks hasks => exact (parseArgs_of_words hargv).trans (settle_of_asks hasks)
    | help given rest hword =>
      have hname : ∀ opt : CliOption, opt.name ≠ _ := fun opt h => opt.name_not_flag.1 (h ▸ hword)
      rw [parseArgs_of_unread hargv (unread_of_ne hname rest), stopsAt, if_pos hword]
    | version given rest =>
      have hname : ∀ opt : CliOption, opt.name ≠ _ := fun opt => opt.name_not_flag.2
      rw [parseArgs_of_unread hargv (unread_of_ne hname rest), stopsAt, if_neg (by decide), if_pos rfl]
    | @wrong given rest msg hwrong =>
      cases rest with
      | nil =>
        rw [List.append_nil] at hargv
        exact (parseArgs_of_words hargv).trans (settle_of_complaint hwrong)
      | cons word rest =>
        rw [parseArgs_of_unread hargv hwrong.unread, hwrong.stopsAt]
        rfl

end

/-! ## Writing a command line -/

/-- The options that ask for something. -/
def Cli.options (cli : Cli) : List (CliOption × Str) :=
  [(.mount, cli.mount), (.ipc, cli.ipc), (.cache, cli.cache)] ++
    (cli.lock.map (CliOption.lock, ·)).toList ++
    (cli.ipcTokenFile.map (CliOption.ipcTokenFile, ·)).toList ++
    (cli.profile.map (CliOption.profile, ·)).toList

/-- **Whatever can be asked for can be asked for on a command line**, also values that look like options. -/
theorem parse_args_words (b : Build) (env : Environment) (prog : Str) (cli : Cli) :
    parseArgs b env (prog :: cliOptions.words cli.options) = .ok cli := by
  have hasks : Asks env cli.options cli := by
    obtain ⟨mount, ipc, cache, lock, ipcTokenFile, profile, hasProfile⟩ := cli
    constructor <;> cases lock <;> cases ipcTokenFile <;> cases profile <;> rfl
  rw [parseArgs_of_words rfl]
  exact settle_of_asks hasks

end UnidriveMount
