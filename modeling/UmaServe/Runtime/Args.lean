/-
`runtime/config.cpp`: `RuntimeConfig::from_args`, the configuration from the
environment and the command line, and what `umad` does with it before it
loads the model.

Each knob has the value its last flag gives, or its default from the
environment (`from_args_last`); a command line that is not taken is blamed on
its first word at fault (`from_args_blames`); and a configuration that is
written as flags, in any order, is read back (`from_args_reads`).
-/
import UmaServe.Lib.Flags
import UmaServe.Runtime.Config
import UmaServe.Util.Numbers

namespace UmaServe

/-- `RuntimeConfig`, with the fields that are only read at start-up. -/
structure StartConfig extends RuntimeConfig where
  modelPath : Bytes := []
  nCtx : Nat := 4096
  nThreads : Int := 0
  nBatch : Nat := 0
  nUbatch : Nat := 0
  socketPath : Bytes := bytes "/tmp/uma.sock"
  useMmap : Bool := true
  useMlock : Bool := false
  enablePerf : Bool := false

/-- `std::tolower`, in the C locale. -/
def toLower (c : UInt8) : UInt8 := if chr 'A' ≤ c ∧ c ≤ chr 'Z' then c + 32 else c

/-- `parse_bool_flag`. -/
def parseBoolFlag (s : Bytes) : Bool :=
  let lower := s.map toLower
  s = bytes "1" || lower = bytes "true" || lower = bytes "yes" || lower = bytes "on"

namespace StartConfig

/-- The defaults from the environment. A variable that is empty is as good as
unset. -/
def fromEnv (env : Bytes → Option Bytes) : StartConfig :=
  let getEnv key := (env (bytes key)).filter fun v => !v.isEmpty
  let number key := (getEnv key).map fun v => toU32 (strtoul v)
  let cfg : StartConfig := {}
  { cfg with
    modelPath := (getEnv "UMA_MODEL").getD cfg.modelPath
    nCtx := (number "UMA_N_CTX").getD cfg.nCtx
    nThreads := ((getEnv "UMA_THREADS").map fun v => toI32 (strtol v)).getD cfg.nThreads
    nBatch := (number "UMA_N_BATCH").getD cfg.nBatch
    nUbatch := (number "UMA_N_UBATCH").getD cfg.nUbatch
    socketPath := (getEnv "UMA_SOCK").getD cfg.socketPath
    nSeqMax := (number "UMA_N_SEQ").getD cfg.nSeqMax
    useMmap := ((getEnv "UMA_USE_MMAP").map parseBoolFlag).getD cfg.useMmap
    useMlock := ((getEnv "UMA_USE_MLOCK").map parseBoolFlag).getD cfg.useMlock
    sloTtftMs := (number "UMA_SLO_TTFT_MS").getD cfg.sloTtftMs
    sloTbtMs := (number "UMA_SLO_TBT_MS").getD cfg.sloTbtMs
    bmtBudgetUnits := ((getEnv "UMA_BMT_BUDGET").map fun v => (strtoul v).toUInt64).getD cfg.bmtBudgetUnits
    enablePerf := (getEnv "UMA_LOG_LEVEL").any fun v => v.map toLower = bytes "debug" }

/-- What `need` throws. -/
def missing (name : String) : Bytes := bytes "missing value for " ++ bytes name

end StartConfig

/-! ## Knobs -/

/-- What a flag can set. -/
inductive Knob
  | model | nCtx | threads | mlock | mmap | socket | maxSessions | nSeqMax | maxTokens | bmtBudget
  deriving DecidableEq

def Knob.Value : Knob → Type
  | .model | .socket => Bytes
  | .nCtx | .maxSessions | .nSeqMax | .maxTokens => Nat
  | .threads => Int
  | .mlock | .mmap => Bool
  | .bmtBudget => UInt64

namespace StartConfig

def get : ∀ k : Knob, StartConfig → k.Value
  | .model, cfg => cfg.modelPath
  | .nCtx, cfg => cfg.nCtx
  | .threads, cfg => cfg.nThreads
  | .mlock, cfg => cfg.useMlock
  | .mmap, cfg => cfg.useMmap
  | .socket, cfg => cfg.socketPath
  | .maxSessions, cfg => cfg.maxSessions
  | .nSeqMax, cfg => cfg.nSeqMax
  | .maxTokens, cfg => cfg.maxTokens
  | .bmtBudget, cfg => cfg.bmtBudgetUnits

def put : ∀ k : Knob, k.Value → StartConfig → StartConfig
  | .model, v, cfg => { cfg with modelPath := v }
  | .nCtx, v, cfg => { cfg with nCtx := v }
  | .threads, v, cfg => { cfg with nThreads := v }
  | .mlock, v, cfg => { cfg with useMlock := v }
  | .mmap, v, cfg => { cfg with useMmap := v }
  | .socket, v, cfg => { cfg with socketPath := v }
  | .maxSessions, v, cfg => { cfg with maxSessions := v }
  | .nSeqMax, v, cfg => { cfg with nSeqMax := v }
  | .maxTokens, v, cfg => { cfg with maxTokens := v }
  | .bmtBudget, v, cfg => { cfg with bmtBudgetUnits := v }

def knobs : Lib.Fields Knob Knob.Value StartConfig where
  get := get
  put := put
  get_put := fun k _ _ => by cases k <;> rfl
  get_put_ne := fun k j _ _ hne => by cases k <;> cases j <;> first | rfl | exact absurd rfl hne

end StartConfig

/-- The fields no flag sets. -/
def StartConfig.others (cfg : StartConfig) : Nat × Nat × Nat × Nat × Nat × Nat × Bool :=
  (cfg.nBatch, cfg.nUbatch, cfg.maxPromptBytes, cfg.idleTimeoutSec, cfg.sloTtftMs, cfg.sloTbtMs, cfg.enablePerf)

open StartConfig (missing) in
/-- The branches of the loop over `argv` that turn a knob. -/
def turn (arg : Bytes) : Option (Lib.Turn Bytes Knob Knob.Value Bytes) :=
  if arg = bytes "--model" then some (.reads .model id (missing "--model"))
  else if arg = bytes "--n-ctx" then some (.reads .nCtx (fun v => toU32 (strtoul v)) (missing "--n-ctx"))
  else if arg = bytes "--threads" then some (.reads .threads (fun v => toI32 (strtol v)) (missing "--threads"))
  else if arg = bytes "--mlock" then some (.fixed .mlock true)
  else if arg = bytes "--no-mlock" then some (.fixed .mlock false)
  else if arg = bytes "--no-mmap" then some (.fixed .mmap false)
  else if arg = bytes "--mmap" then some (.fixed .mmap true)
  else if arg = bytes "--sock" ∨ arg = bytes "--socket" then some (.reads .socket id (missing "--socket"))
  else if arg = bytes "--max-sessions" then
    some (.reads .maxSessions (fun v => toU32 (strtoul v)) (missing "--max-sessions"))
  else if arg = bytes "--parallel" ∨ arg = bytes "--n-seq-max" then
    some (.reads .nSeqMax (fun v => toU32 (strtoul v)) (missing "--parallel"))
  else if arg = bytes "--max-tokens" then
    some (.reads .maxTokens (fun v => toU32 (strtoul v)) (missing "--max-tokens"))
  else if arg = bytes "--bmt-budget" then
    some (.reads .bmtBudget (fun v => (strtoul v).toUInt64) (missing "--bmt-budget"))
  else none

/-- What the others throw. -/
def unknown (arg : Bytes) : Bytes :=
  if arg = bytes "--help" ∨ arg = bytes "-h" then bytes "help" else bytes "unknown flag: " ++ arg

namespace StartConfig

/-- `from_args`: the configuration, or the text of the exception. -/
def fromArgs (env : Bytes → Option Bytes) (argv : List Bytes) : Except Bytes StartConfig :=
  Lib.scan (knobs.flag turn unknown) (fromEnv env) (argv.drop 1)

/-- The setting that gives a knob the value it has. -/
def setting (cfg : StartConfig) : Knob → Lib.Setting Bytes
  | .model => .value (bytes "--model") cfg.modelPath
  | .nCtx => .value (bytes "--n-ctx") (stdToString cfg.nCtx)
  | .threads => .value (bytes "--threads") (stdToString cfg.nThreads)
  | .mlock => .plain (if cfg.useMlock then bytes "--mlock" else bytes "--no-mlock")
  | .mmap => .plain (if cfg.useMmap then bytes "--mmap" else bytes "--no-mmap")
  | .socket => .value (bytes "--socket") cfg.socketPath
  | .maxSessions => .value (bytes "--max-sessions") (stdToString cfg.maxSessions)
  | .nSeqMax => .value (bytes "--parallel") (stdToString cfg.nSeqMax)
  | .maxTokens => .value (bytes "--max-tokens") (stdToString cfg.maxTokens)
  | .bmtBudget => .value (bytes "--bmt-budget") (stdToString cfg.bmtBudgetUnits.toNat)

/-- The fields hold what their types in the source do. -/
structure InRange (cfg : StartConfig) : Prop where
  nCtx : cfg.nCtx < 2 ^ 32
  threads : -2 ^ 31 ≤ cfg.nThreads ∧ cfg.nThreads < 2 ^ 31
  maxSessions : cfg.maxSessions < 2 ^ 32
  nSeqMax : cfg.nSeqMax < 2 ^ 32
  maxTokens : cfg.maxTokens < 2 ^ 32

end StartConfig

section Args

variable {env : Bytes → Option Bytes} {argv : List Bytes} {cfg : StartConfig}

theorem others_puts (cfg : StartConfig) (cs : List (Σ k : Knob, k.Value)) :
    (StartConfig.knobs.puts cfg cs).others = cfg.others := by
  induction cs generalizing cfg with
  | nil => rfl
  | cons c cs ih =>
    rw [Lib.Fields.puts, List.foldl_cons]
    refine (ih _).trans ?_
    obtain ⟨k, v⟩ := c
    cases k <;> rfl

theorem config_ext {cfg' : StartConfig} (hk : ∀ k, cfg.get k = cfg'.get k) (ho : cfg.others = cfg'.others) :
    cfg = cfg' := by
  obtain ⟨⟨_, _, _, _, _, _, _, _⟩, _, _, _, _, _, _, _, _, _⟩ := cfg
  obtain ⟨⟨_, _, _, _, _, _, _, _⟩, _, _, _, _, _, _, _, _, _⟩ := cfg'
  simp only [StartConfig.others, Prod.mk.injEq] at ho
  obtain ⟨rfl, rfl, rfl, rfl, rfl, rfl, rfl⟩ := ho
  obtain rfl := hk .model
  obtain rfl := hk .nCtx
  obtain rfl := hk .threads
  obtain rfl := hk .mlock
  obtain rfl := hk .mmap
  obtain rfl := hk .socket
  obtain rfl := hk .maxSessions
  obtain rfl := hk .nSeqMax
  obtain rfl := hk .maxTokens
  obtain rfl := hk .bmtBudget
  rfl

/-- **The last flag counts.** A command line is taken exactly when it spells
settings; then each knob has the value of the last of them that turns it, or
its default, and no other field is touched. -/
theorem from_args_last : StartConfig.fromArgs env argv = .ok cfg ↔
    ∃ xs : List (Lib.Setting Bytes), (∀ x ∈ xs, (Lib.change turn x).isSome = true) ∧
      argv.drop 1 = xs.flatMap Lib.Setting.words ∧
      (∀ k, cfg.get k = ((xs.filterMap (Lib.change turn)).reverse.dlookup k).getD ((StartConfig.fromEnv env).get k)) ∧
      cfg.others = (StartConfig.fromEnv env).others := by
  rw [StartConfig.fromArgs, Lib.scan_flag_ok]
  refine exists_congr fun xs => and_congr_right fun _ => and_congr_right fun _ => ?_
  constructor
  · intro h
    rw [h]
    exact ⟨StartConfig.knobs.get_puts _ _, others_puts _ _⟩
  · intro ⟨hk, ho⟩
    exact config_ext (fun k => (hk k).trans (StartConfig.knobs.get_puts _ _ k).symm) (ho.trans (others_puts _ _).symm)

/-- **The first word at fault is blamed**: it turns no knob, or it is the last
word and should have a value. -/
theorem from_args_blames {e : Bytes} : StartConfig.fromArgs env argv = .error e ↔
    ∃ (xs : List (Lib.Setting Bytes)) (a : Bytes) (rest : List Bytes),
      (∀ x ∈ xs, (Lib.change turn x).isSome = true) ∧ argv.drop 1 = xs.flatMap Lib.Setting.words ++ a :: rest ∧
      (turn a = none ∧ e = unknown a ∨ rest = [] ∧ ∃ k read, turn a = some (.reads k read e)) := by
  rw [StartConfig.fromArgs, Lib.scan_flag_error]

theorem toU32_strtoul {n : Nat} (h : n < 2 ^ 32) : toU32 (strtoul (stdToString n)) = n := by
  rw [strtoul_stdToString (by omega), toU32_of_lt h]

theorem change_setting (hc : cfg.InRange) (k : Knob) : Lib.change turn (cfg.setting k) = some ⟨k, cfg.get k⟩ := by
  cases k with
  | model | socket => with_unfolding_all rfl
  | mlock =>
    have hturn : ∀ b : Bool, turn (if b then bytes "--mlock" else bytes "--no-mlock") = some (.fixed .mlock b) := by
      intro b
      cases b <;> with_unfolding_all rfl
    exact Lib.change_fixed (hturn cfg.useMlock)
  | mmap =>
    have hturn : ∀ b : Bool, turn (if b then bytes "--mmap" else bytes "--no-mmap") = some (.fixed .mmap b) := by
      intro b
      cases b <;> with_unfolding_all rfl
    exact Lib.change_fixed (hturn cfg.useMmap)
  | nCtx =>
    have hturn : turn (bytes "--n-ctx") =
        some (.reads .nCtx (fun v => toU32 (strtoul v)) (StartConfig.missing "--n-ctx")) := by with_unfolding_all rfl
    exact Lib.change_reads hturn (toU32_strtoul hc.nCtx)
  | threads =>
    have hturn : turn (bytes "--threads") =
        some (.reads .threads (fun v => toI32 (strtol v)) (StartConfig.missing "--threads")) := by
      with_unfolding_all rfl
    have hrange := hc.threads
    exact Lib.change_reads hturn (atoi_stdToString hrange)
  | maxSessions =>
    have hturn : turn (bytes "--max-sessions") =
        some (.reads .maxSessions (fun v => toU32 (strtoul v)) (StartConfig.missing "--max-sessions")) := by
      with_unfolding_all rfl
    exact Lib.change_reads hturn (toU32_strtoul hc.maxSessions)
  | nSeqMax =>
    have hturn : turn (bytes "--parallel") =
        some (.reads .nSeqMax (fun v => toU32 (strtoul v)) (StartConfig.missing "--parallel")) := by
      with_unfolding_all rfl
    exact Lib.change_reads hturn (toU32_strtoul hc.nSeqMax)
  | maxTokens =>
    have hturn : turn (bytes "--max-tokens") =
        some (.reads .maxTokens (fun v => toU32 (strtoul v)) (StartConfig.missing "--max-tokens")) := by
      with_unfolding_all rfl
    exact Lib.change_reads hturn (toU32_strtoul hc.maxTokens)
  | bmtBudget =>
    have hturn : turn (bytes "--bmt-budget") =
        some (.reads .bmtBudget (fun v => (strtoul v).toUInt64) (StartConfig.missing "--bmt-budget")) := by
      with_unfolding_all rfl
    refine Lib.change_reads hturn ?_
    rw [strtoul_stdToString (UInt64.toNat_lt _)]
    exact UInt64.ofNat_toNat

/-- All of them. -/
def Knob.all : List Knob :=
  [.model, .nCtx, .threads, .mlock, .mmap, .socket, .maxSessions, .nSeqMax, .maxTokens, .bmtBudget]

theorem Knob.mem_all (k : Knob) : k ∈ Knob.all := by cases k <;> decide

/-- **A configuration is read back**, from the flags of its knobs in any order,
whatever settings stand before them; the other fields come from the
environment. -/
theorem from_args_reads {argv₀ : Bytes} {before : List (Lib.Setting Bytes)} {ks : List Knob} (hc : cfg.InRange)
    (hbefore : ∀ x ∈ before, (Lib.change turn x).isSome = true) (hks : ks.Perm Knob.all) :
    StartConfig.fromArgs env (argv₀ :: (before ++ ks.map cfg.setting).flatMap Lib.Setting.words) =
      .ok { StartConfig.fromEnv env with
        modelPath := cfg.modelPath, nCtx := cfg.nCtx, nThreads := cfg.nThreads, useMlock := cfg.useMlock,
        useMmap := cfg.useMmap, socketPath := cfg.socketPath, maxSessions := cfg.maxSessions, nSeqMax := cfg.nSeqMax,
        maxTokens := cfg.maxTokens, bmtBudgetUnits := cfg.bmtBudgetUnits } := by
  have hturns : ∀ x ∈ before ++ ks.map cfg.setting, (Lib.change turn x).isSome = true := by
    intro x hx
    rcases List.mem_append.mp hx with hx | hx
    · exact hbefore x hx
    · obtain ⟨k, -, rfl⟩ := List.mem_map.mp hx
      rw [change_setting hc]
      rfl
  have hchanges : (ks.map cfg.setting).filterMap (Lib.change turn) = ks.map fun k => ⟨k, cfg.get k⟩ := by
    rw [List.filterMap_map, ← List.filterMap_eq_map]
    exact List.filterMap_congr fun k _ => change_setting hc k
  rw [StartConfig.fromArgs]
  refine Lib.scan_flag_ok.mpr ⟨before ++ ks.map cfg.setting, hturns, rfl, ?_⟩
  rw [List.filterMap_append, hchanges]
  refine config_ext (fun k => ?_) (Eq.trans rfl (others_puts (StartConfig.fromEnv env) _).symm)
  -- The change of `k` by its own flag is the last one.
  refine Eq.trans ?_ (StartConfig.knobs.get_puts_all _ _ cfg.get (hks.nodup_iff.mpr (by decide))
    (hks.mem_iff.mpr k.mem_all)).symm
  cases k <;> rfl

/-- The flags of a limit of seven tokens, the last one first, behind a flag
that one of them overrides. -/
theorem from_args_reads_seven :
    StartConfig.fromArgs (fun _ => none) (bytes "umad" :: ([Lib.Setting.plain (bytes "--no-mmap")] ++
      Knob.all.reverse.map ({ maxTokens := 7 } : StartConfig).setting).flatMap Lib.Setting.words) =
      .ok { maxTokens := 7 } :=
  from_args_reads ⟨by decide, by decide, by decide, by decide, by decide⟩ (by with_unfolding_all decide)
    (List.reverse_perm _)

/-! ## The start -/

/-- What `main` comes to before it loads the model. -/
inductive StartUp
  | exit (code : Nat) (out err : Bytes)
  | run (cfg : StartConfig)

/-- `print_usage`. -/
def usage : Bytes :=
  bytes "umad - UMA Serve runtime daemon (M1 foundations)\n" ++
    bytes "Usage: umad --model /path/model.gguf [--n-ctx 4096] [--threads N] [--mlock] " ++
    bytes "[--\x7bno-\x7dmmap] [--socket /tmp/uma.sock] [--max-sessions N] [--max-tokens N]\n\n" ++
    bytes "Env: UMA_MODEL, UMA_N_CTX, UMA_THREADS, UMA_USE_MMAP, UMA_USE_MLOCK, UMA_SOCK\n"

/-- A line of the logger at its error level, which no setting silences; `clock`
is the time of day as it prints it. -/
def logError (clock msg : Bytes) : Bytes := bytes "[error " ++ clock ++ (bytes "] " ++ msg ++ bytes "\n")

/-- The start of `main`; `present` is `std::filesystem::exists`, with the text
of the exception where it throws one. -/
def startUp (env : Bytes → Option Bytes) (present : Bytes → Except Bytes Bool) (clock : Bytes) (argv : List Bytes) :
    StartUp :=
  match StartConfig.fromArgs env argv with
  | .error e =>
    if e = bytes "help" then .exit 0 usage [] else .exit 2 usage (bytes "Argument error: " ++ e ++ bytes "\n")
  | .ok cfg =>
    if cfg.modelPath.isEmpty then .exit 2 usage (bytes "Error: --model or UMA_MODEL is required.\n")
    else
      match present cfg.modelPath with
      | .error what => .exit 1 [] (logError clock (bytes "Fatal error: " ++ what))
      | .ok false => .exit 2 [] (bytes "Error: model file not found: " ++ cfg.modelPath ++ bytes "\n")
      | .ok true => .run cfg

theorem help_ne (a : Bytes) : bytes "help" ≠ bytes "unknown flag: " ++ a ∧
    bytes "help" ≠ bytes "missing value for " ++ a := by
  have hhelp : bytes "help" = chr 'h' :: bytes "elp" := by decide +kernel
  have hunknown : bytes "unknown flag: " = chr 'u' :: bytes "nknown flag: " := by decide +kernel
  have hmissing : bytes "missing value for " = chr 'm' :: bytes "issing value for " := by decide +kernel
  rw [hhelp, hunknown, hmissing]
  exact ⟨fun h => absurd (List.cons.inj h).1 (by decide), fun h => absurd (List.cons.inj h).1 (by decide)⟩

/-- What a turn tells where its value is missing. -/
def Wanting (t : Option (Lib.Turn Bytes Knob Knob.Value Bytes)) : Prop :=
  ∀ k read e, t = some (.reads k read e) → ∃ name, e = StartConfig.missing name

theorem wanting_turn (a : Bytes) : Wanting (turn a) := by
  have hreads : ∀ {k : Knob} {read : Bytes → k.Value} {name : String},
      Wanting (some (.reads k read (StartConfig.missing name))) := by
    intro k read name _ _ _ h
    cases h
    exact ⟨name, rfl⟩
  unfold turn
  repeat' refine iteInduction (motive := Wanting) (fun _ => ?_) fun _ => ?_
  all_goals first | exact hreads | (intro _ _ _ h; cases h)

theorem text_ne {t u v : Bytes} (h : t ≠ []) : t ++ u ++ v ≠ [] := by
  intro hnil
  exact h (List.append_eq_nil_iff.mp (List.append_eq_nil_iff.mp hnil).1).1

theorem from_args_help (env : Bytes → Option Bytes) (argv : List Bytes) : StartConfig.fromArgs env argv = .error (bytes "help") ↔
    ∃ (xs : List (Lib.Setting Bytes)) (a : Bytes) (rest : List Bytes), (∀ x ∈ xs, (Lib.change turn x).isSome = true) ∧
      argv.drop 1 = xs.flatMap Lib.Setting.words ++ a :: rest ∧ (a = bytes "--help" ∨ a = bytes "-h") := by
  rw [from_args_blames]
  refine exists_congr fun xs => exists_congr fun a => exists_congr fun rest => ?_
  refine and_congr_right fun _ => and_congr_right fun _ => ?_
  constructor
  · rintro (⟨-, he⟩ | ⟨-, k, read, hturn⟩)
    · by_contra hno
      rw [unknown, if_neg hno] at he
      exact (help_ne a).1 he
    · obtain ⟨name, hname⟩ := wanting_turn a k read _ hturn
      exact ((help_ne (bytes name)).2 hname).elim
  · rintro (rfl | rfl)
    · exact .inl ⟨by with_unfolding_all rfl, by with_unfolding_all rfl⟩
    · exact .inl ⟨by with_unfolding_all rfl, by with_unfolding_all rfl⟩

/-- **The start of the daemon.** It runs with the configuration that was taken,
if there is a model file; it shows its usage and exits with 0 exactly where
the first word at fault asks for help; it exits with 1 exactly where looking
for the model file fails; and it exits with nothing but these and 2, without a
message for 0 alone. -/
theorem start_up (env : Bytes → Option Bytes) (present : Bytes → Except Bytes Bool) (clock : Bytes)
    (argv : List Bytes) :
    (∀ cfg, startUp env present clock argv = .run cfg ↔
      StartConfig.fromArgs env argv = .ok cfg ∧ cfg.modelPath ≠ [] ∧ present cfg.modelPath = .ok true) ∧
    (∀ out err, startUp env present clock argv = .exit 0 out err ↔ out = usage ∧ err = [] ∧
      ∃ (xs : List (Lib.Setting Bytes)) (a : Bytes) (rest : List Bytes), (∀ x ∈ xs, (Lib.change turn x).isSome = true) ∧
        argv.drop 1 = xs.flatMap Lib.Setting.words ++ a :: rest ∧ (a = bytes "--help" ∨ a = bytes "-h")) ∧
    (∀ out err, startUp env present clock argv = .exit 1 out err ↔ ∃ cfg what,
      StartConfig.fromArgs env argv = .ok cfg ∧ cfg.modelPath ≠ [] ∧ present cfg.modelPath = .error what ∧
        out = [] ∧ err = logError clock (bytes "Fatal error: " ++ what)) ∧
    ∀ code out err, startUp env present clock argv = .exit code out err →
      code = 0 ∨ (code = 1 ∨ code = 2) ∧ err ≠ [] := by
  simp only [← from_args_help env]
  unfold startUp
  cases StartConfig.fromArgs env argv with
  | error e =>
    by_cases he : e = bytes "help"
    · simp only [he, if_true]
      refine ⟨fun cfg => ⟨nofun, nofun⟩, fun out err => ⟨fun h => ?_, fun ⟨ho, hr, _⟩ => by rw [ho, hr]⟩,
        fun out err => ⟨nofun, nofun⟩, ?_⟩
      · cases h
        exact ⟨rfl, rfl, trivial⟩
      · intro code out err h
        cases h
        exact .inl rfl
    · simp only [if_neg he]
      refine ⟨fun cfg => ⟨nofun, nofun⟩, fun out err => ⟨nofun, fun ⟨_, _, h⟩ => absurd (Except.error.inj h) he⟩,
        fun out err => ⟨nofun, nofun⟩, ?_⟩
      intro code out err h
      cases h
      exact .inr ⟨.inr rfl, text_ne (by with_unfolding_all decide)⟩
  | ok cfg =>
    by_cases hm : cfg.modelPath = []
    · simp only [hm, List.isEmpty_nil, if_true]
      refine ⟨fun cfg' => ⟨nofun, fun ⟨hok, hne, _⟩ => ?_⟩, fun out err => ⟨nofun, fun ⟨_, _, h⟩ => nomatch h⟩,
        fun out err => ⟨nofun, fun ⟨cfg', _, hok, hne, _⟩ => ?_⟩, ?_⟩
      · cases hok
        exact absurd hm hne
      · cases hok
        exact absurd hm hne
      · intro code out err h
        cases h
        exact .inr ⟨.inr rfl, by with_unfolding_all decide⟩
    have hne : ¬ cfg.modelPath.isEmpty = true := by rwa [List.isEmpty_iff]
    dsimp only
    rw [if_neg hne]
    -- Only the answer about the file is left.
    have hsame : ∀ {cfg'}, (.ok cfg : Except Bytes StartConfig) = .ok cfg' → cfg' = cfg := fun h => (Except.ok.inj h).symm
    cases hp : present cfg.modelPath with
    | error what =>
      refine ⟨fun cfg' => ⟨nofun, fun ⟨hok, _, hthere⟩ => ?_⟩, fun out err => ⟨nofun, fun ⟨_, _, h⟩ => nomatch h⟩,
        fun out err => ⟨fun h => ?_, fun ⟨cfg', what', hok, _, hthrown, ho, hr⟩ => ?_⟩, ?_⟩
      · rw [hsame hok, hp] at hthere
        cases hthere
      · cases h
        exact ⟨cfg, what, rfl, hm, hp, rfl, rfl⟩
      · rw [hsame hok, hp] at hthrown
        cases hthrown
        rw [ho, hr]
      · intro code out err h
        cases h
        exact .inr ⟨.inl rfl, text_ne (by with_unfolding_all decide)⟩
    | ok there =>
      have hnot : ∀ what cfg', (.ok cfg : Except Bytes StartConfig) = .ok cfg' →
          present cfg'.modelPath ≠ .error what := by
        intro what cfg' hok hthrown
        rw [hsame hok, hp] at hthrown
        cases hthrown
      cases there with
      | false =>
        refine ⟨fun cfg' => ⟨nofun, fun ⟨hok, _, hthere⟩ => ?_⟩, fun out err => ⟨nofun, fun ⟨_, _, h⟩ => nomatch h⟩,
          fun out err => ⟨nofun, fun ⟨cfg', what, hok, _, h, _⟩ => absurd h (hnot what cfg' hok)⟩, ?_⟩
        · rw [hsame hok, hp] at hthere
          cases hthere
        · intro code out err h
          cases h
          exact .inr ⟨.inr rfl, text_ne (by with_unfolding_all decide)⟩
      | true =>
        refine ⟨fun cfg' => ⟨fun h => ?_, fun ⟨hok, _⟩ => ?_⟩, fun out err => ⟨nofun, fun ⟨_, _, h⟩ => nomatch h⟩,
          fun out err => ⟨nofun, fun ⟨cfg', what, hok, _, h, _⟩ => absurd h (hnot what cfg' hok)⟩, nofun⟩
        · cases h
          exact ⟨rfl, hm, hp⟩
        · rw [hsame hok]

end Args
end UmaServe
