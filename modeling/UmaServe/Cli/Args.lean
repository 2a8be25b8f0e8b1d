/-
The command line of `uma-cli`: what `main` makes of `argv` before it
connects. It connects exactly when `argv` spells flags and there is something
to ask, with the options the last flag of each kind gives; any other command
line ends with the usage (`cli_start`).
-/
import UmaServe.Cli.Main
import UmaServe.Lib.Flags
import UmaServe.Util.Numbers

namespace UmaServe

/-- `CliOptions`, with the path of the socket. -/
structure CliStart extends CliOptions where
  socketPath : Bytes := bytes "/tmp/uma.sock"

/-- Why the loop over `argv` ends the program. -/
inductive ArgStop
  | help
  | bad (a : Bytes)

/-- What `main` comes to before it connects. -/
inductive CliUp
  | exit (code : Nat) (err : Bytes)
  | connect (opt : CliStart)

abbrev AsksHelp (a : Bytes) : Prop := a = bytes "--help" ∨ a = bytes "-h"

/-! ## Options -/

/-- What a flag can set. -/
inductive CliKnob
  | socket | prompt | id | maxTokens | temp | topP | stream | metrics
  deriving DecidableEq

def CliKnob.Value : CliKnob → Type
  | .socket | .prompt | .id => Bytes
  | .maxTokens => Int
  -- Whether it is given, and what.
  | .temp | .topP => Bool × Double
  | .stream | .metrics => Bool

namespace CliStart

def get : ∀ k : CliKnob, CliStart → k.Value
  | .socket, opt => opt.socketPath
  | .prompt, opt => opt.prompt
  | .id, opt => opt.id
  | .maxTokens, opt => opt.maxTokens
  | .temp, opt => (opt.hasTemperature, opt.temperature)
  | .topP, opt => (opt.hasTopP, opt.topP)
  | .stream, opt => opt.stream
  | .metrics, opt => opt.metrics

def put : ∀ k : CliKnob, k.Value → CliStart → CliStart
  | .socket, v, opt => { opt with socketPath := v }
  | .prompt, v, opt => { opt with prompt := v }
  | .id, v, opt => { opt with id := v }
  | .maxTokens, v, opt => { opt with maxTokens := v }
  | .temp, v, opt => { opt with temperature := v.2, hasTemperature := v.1 }
  | .topP, v, opt => { opt with topP := v.2, hasTopP := v.1 }
  | .stream, v, opt => { opt with stream := v }
  | .metrics, v, opt => { opt with metrics := v }

def knobs : Lib.Fields CliKnob CliKnob.Value CliStart where
  get := get
  put := put
  get_put := fun k _ _ => by cases k <;> rfl
  get_put_ne := fun k j _ _ hne => by cases k <;> cases j <;> first | rfl | exact absurd rfl hne

/-- The branches of the loop over `argv` that set an option. Where the value is
missing, a flag is like any other word. -/
def turn (atof : Bytes → Double) (a : Bytes) : Option (Lib.Turn Bytes CliKnob CliKnob.Value ArgStop) :=
  if AsksHelp a then none
  else if a = bytes "--socket" then some (.reads .socket id (.bad a))
  else if a = bytes "--prompt" then some (.reads .prompt id (.bad a))
  else if a = bytes "--id" then some (.reads .id id (.bad a))
  else if a = bytes "--max-tokens" then some (.reads .maxTokens atoi (.bad a))
  else if a = bytes "--temp" then some (.reads .temp (fun v => (true, atof v)) (.bad a))
  else if a = bytes "--top-p" then some (.reads .topP (fun v => (true, atof v)) (.bad a))
  else if a = bytes "--no-stream" then some (.fixed .stream false)
  else if a = bytes "--metrics" then some (.fixed .metrics true)
  else none

/-- What the others stop the loop with. -/
def unknown (a : Bytes) : ArgStop := if AsksHelp a then .help else .bad a

/-- The loop over `argv`. -/
def scan (atof : Bytes → Double) (args : List Bytes) : Except ArgStop CliStart :=
  Lib.scan (knobs.flag (turn atof) unknown) {} args

end CliStart

/-! ## The start -/

/-- `print_usage`. -/
def cliUsage (argv₀ : Bytes) : Bytes :=
  bytes "uma-cli - UMA Serve client (UDS, framed JSON)\n" ++ bytes "Usage: " ++ argv₀ ++
    (bytes " --prompt 'text' [--socket /tmp/uma.sock] [--id req-1] [--max-tokens N] [--temp T] [--top-p P] " ++
      bytes "[--no-stream] [--metrics]\n")

/-- The start of `main`; `defaultId` is what `gen_default_id` returns. -/
def cliUp (atof : Bytes → Double) (defaultId : Bytes) (argv : List Bytes) : CliUp :=
  let usage := cliUsage (argv.headD [])
  match CliStart.scan atof (argv.drop 1) with
  | .error .help => .exit 0 usage
  | .error (.bad a) => .exit 1 (bytes "Unknown or incomplete flag: " ++ a ++ bytes "\n" ++ usage)
  | .ok opt =>
    if !opt.metrics && opt.prompt.isEmpty then .exit 1 (bytes "--prompt is required (or use --metrics)\n" ++ usage)
    else .connect (if opt.id.isEmpty then { opt with id := defaultId } else opt)

/-- The words are flags, and these are the options the last of each kind
gives. -/
def Spelled (atof : Bytes → Double) (args : List Bytes) (last : CliStart) : Prop :=
  ∃ xs : List (Lib.Setting Bytes), (∀ x ∈ xs, (Lib.change (CliStart.turn atof) x).isSome = true) ∧
    args = xs.flatMap Lib.Setting.words ∧
    ∀ k, last.get k = ((xs.filterMap (Lib.change (CliStart.turn atof))).reverse.dlookup k).getD (({} : CliStart).get k)

/-- The first word that is no flag, or has no value although it wants one. -/
def FirstFault (atof : Bytes → Double) (args : List Bytes) (a : Bytes) : Prop :=
  ∃ (xs : List (Lib.Setting Bytes)) (rest : List Bytes),
    (∀ x ∈ xs, (Lib.change (CliStart.turn atof) x).isSome = true) ∧ args = xs.flatMap Lib.Setting.words ++ a :: rest ∧
    (CliStart.turn atof a = none ∨ rest = [] ∧ ∃ k read e, CliStart.turn atof a = some (.reads k read e))

section Args

variable {atof : Bytes → Double} {defaultId : Bytes} {argv args : List Bytes} {opt opt' last : CliStart} {a : Bytes}

theorem cliStart_ext (h : ∀ k, opt.get k = opt'.get k) : opt = opt' := by
  obtain ⟨⟨_, _, _, _, _, _, _, _, _⟩, _⟩ := opt
  obtain ⟨⟨_, _, _, _, _, _, _, _, _⟩, _⟩ := opt'
  obtain rfl := h .socket
  obtain rfl := h .prompt
  obtain rfl := h .id
  obtain rfl := h .maxTokens
  obtain ⟨rfl, rfl⟩ := Prod.mk.inj (h .temp)
  obtain ⟨rfl, rfl⟩ := Prod.mk.inj (h .topP)
  obtain rfl := h .stream
  obtain rfl := h .metrics
  rfl

theorem scan_spelled : CliStart.scan atof args = .ok last ↔ Spelled atof args last := by
  rw [CliStart.scan, Lib.scan_flag_ok]
  refine exists_congr fun xs => and_congr_right fun _ => and_congr_right fun _ => ?_
  constructor
  · intro h
    rw [h]
    exact CliStart.knobs.get_puts _ _
  · intro h
    exact cliStart_ext fun k => (h k).trans (CliStart.knobs.get_puts _ _ k).symm

/-- A flag without its value is like any other word. -/
def Unfinished (a : Bytes) (t : Option (Lib.Turn Bytes CliKnob CliKnob.Value ArgStop)) : Prop :=
  ∀ k read e, t = some (.reads k read e) → e = .bad a

theorem unfinished_turn (atof : Bytes → Double) (a : Bytes) : Unfinished a (CliStart.turn atof a) := by
  unfold CliStart.turn
  repeat' refine iteInduction (motive := Unfinished a) (fun _ => ?_) fun _ => ?_
  all_goals
    intro k read e h
    cases h
    try rfl

theorem missing_turn {k : CliKnob} {read : Bytes → k.Value} {e : ArgStop}
    (h : CliStart.turn atof a = some (.reads k read e)) : e = .bad a ∧ ¬ AsksHelp a := by
  refine ⟨unfinished_turn atof a k read e h, fun hhelp => ?_⟩
  rw [CliStart.turn, if_pos hhelp] at h
  cases h

theorem scan_fault_iff (e : ArgStop) : CliStart.scan atof args = .error e ↔
    ∃ a, FirstFault atof args a ∧ e = CliStart.unknown a := by
  rw [CliStart.scan, Lib.scan_flag_error]
  constructor
  · intro ⟨xs, a, rest, hxs, hargs, hfault⟩
    rcases hfault with ⟨hnone, he⟩ | ⟨hrest, k, read, hreads⟩
    · exact ⟨a, ⟨xs, rest, hxs, hargs, .inl hnone⟩, he⟩
    · obtain ⟨he, hhelp⟩ := missing_turn hreads
      exact ⟨a, ⟨xs, rest, hxs, hargs, .inr ⟨hrest, k, read, e, hreads⟩⟩, by rw [he]; exact (if_neg hhelp).symm⟩
  · intro ⟨a, ⟨xs, rest, hxs, hargs, hfault⟩, he⟩
    refine ⟨xs, a, rest, hxs, hargs, ?_⟩
    rcases hfault with hnone | ⟨hrest, k, read, e', hreads⟩
    · exact .inl ⟨hnone, he⟩
    · obtain ⟨he', hhelp⟩ := missing_turn hreads
      rw [he, CliStart.unknown, if_neg hhelp, ← he']
      exact .inr ⟨hrest, k, read, hreads⟩

theorem scan_help :
    CliStart.scan atof args = .error .help ↔ ∃ a, FirstFault atof args a ∧ AsksHelp a := by
  rw [scan_fault_iff]
  refine exists_congr fun a => and_congr_right fun _ => ?_
  rw [CliStart.unknown]
  split <;> simp_all

theorem scan_bad :
    CliStart.scan atof args = .error (.bad a) ↔ FirstFault atof args a ∧ ¬ AsksHelp a := by
  rw [scan_fault_iff]
  constructor
  · intro ⟨b, hb, hunknown⟩
    rw [CliStart.unknown] at hunknown
    split at hunknown
    · cases hunknown
    next hhelp =>
      cases hunknown
      exact ⟨hb, hhelp⟩
  · intro ⟨ha, hhelp⟩
    exact ⟨a, ha, (if_neg hhelp).symm⟩

/-- **The start of the client.** It connects exactly when its words are flags
and they ask for something, with the options of the last flag of each kind and
an id of its own where none is given; it exits with 0 exactly when the first
word at fault asks for help, and with 1 when that is another word, which it
names, or when nothing is asked for. -/
theorem cli_start (atof : Bytes → Double) (defaultId : Bytes) (argv : List Bytes) :
    (∀ opt, cliUp atof defaultId argv = .connect opt ↔ ∃ last, Spelled atof (argv.drop 1) last ∧
      (last.metrics = true ∨ last.prompt ≠ []) ∧ opt = if last.id = [] then { last with id := defaultId } else last) ∧
    (∀ err, cliUp atof defaultId argv = .exit 0 err ↔
      (∃ a, FirstFault atof (argv.drop 1) a ∧ AsksHelp a) ∧ err = cliUsage (argv.headD [])) ∧
    (∀ err, cliUp atof defaultId argv = .exit 1 err ↔
      (∃ a, (FirstFault atof (argv.drop 1) a ∧ ¬ AsksHelp a) ∧
        err = bytes "Unknown or incomplete flag: " ++ a ++ bytes "\n" ++ cliUsage (argv.headD [])) ∨
      ∃ last, Spelled atof (argv.drop 1) last ∧ (last.metrics = false ∧ last.prompt = []) ∧
        err = bytes "--prompt is required (or use --metrics)\n" ++ cliUsage (argv.headD [])) ∧
    ∀ code err, cliUp atof defaultId argv = .exit code err → code = 0 ∨ code = 1 := by
  simp only [← scan_spelled, ← scan_help, ← scan_bad]
  unfold cliUp
  cases CliStart.scan atof (argv.drop 1) with
  | error e =>
    cases e with
    | help =>
      refine ⟨fun opt => ⟨nofun, fun ⟨_, h, _⟩ => nomatch h⟩, fun err => ⟨fun h => ?_, fun ⟨_, herr⟩ => by rw [herr]⟩,
        fun err => ⟨nofun, fun h => ?_⟩, fun code err h => ?_⟩
      · cases h
        exact ⟨rfl, rfl⟩
      · obtain ⟨a, ha, -⟩ | ⟨last, ha, -⟩ := h
        · cases ha
        · cases ha
      · cases h
        exact .inl rfl
    | bad a =>
      refine ⟨fun opt => ⟨nofun, fun ⟨_, h, _⟩ => nomatch h⟩, fun err => ⟨nofun, fun ⟨h, _⟩ => nomatch h⟩,
        fun err => ⟨fun h => ?_, fun h => ?_⟩, fun code err h => ?_⟩
      · cases h
        exact .inl ⟨a, rfl, rfl⟩
      · obtain ⟨b, hb, herr⟩ | ⟨last, ha, -⟩ := h
        · cases hb
          rw [herr]
        · cases ha
      · cases h
        exact .inr rfl
  | ok last =>
    by_cases hasks : last.metrics = false ∧ last.prompt = []
    · have hif : (!last.metrics && last.prompt.isEmpty) = true := by simp [hasks]
      dsimp only
      rw [if_pos hif]
      refine ⟨fun opt => ⟨nofun, fun ⟨_, h, hask, _⟩ => ?_⟩, fun err => ⟨nofun, fun ⟨h, _⟩ => nomatch h⟩,
        fun err => ⟨fun h => ?_, fun h => ?_⟩, fun code err h => ?_⟩
      · cases h
        simp [hasks] at hask
      · cases h
        exact .inr ⟨last, rfl, hasks, rfl⟩
      · obtain ⟨b, hb, -⟩ | ⟨_, hb, -, herr⟩ := h
        · cases hb
        · rw [herr]
      · cases h
        exact .inr rfl
    · have hif : ¬ (!last.metrics && last.prompt.isEmpty) = true := by simpa using hasks
      dsimp only
      rw [if_neg hif]
      simp only [List.isEmpty_iff]
      refine ⟨fun opt => ⟨fun h => ?_, fun ⟨_, h, _, hopt⟩ => ?_⟩, fun err => ⟨nofun, fun ⟨h, _⟩ => nomatch h⟩,
        fun err => ⟨nofun, fun h => ?_⟩, fun code err h => nomatch h⟩
      · cases h
        refine ⟨last, rfl, ?_, rfl⟩
        cases hm : last.metrics with
        | true => exact .inl rfl
        | false => exact .inr fun hp => hasks ⟨hm, hp⟩
      · cases h
        rw [hopt]
      · obtain ⟨b, hb, -⟩ | ⟨_, hb, hno, -⟩ := h
        · cases hb
        · cases hb
          exact absurd hno hasks

end Args
end UmaServe
