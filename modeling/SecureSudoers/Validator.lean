/-
Command validation (`validator.rs`, `validator/helpers.rs`): the arguments are
read from the front, flags by their whole token first and as a cluster of
short flags otherwise, and what is accepted is emitted in canonical form.

`iter` is what is left of the arguments, `out` what has been emitted; both are
passed along as the source's `&mut`. `check` is the path check, `regexNew` the
regex compiler. `flagWithValue`, `clusterFlags` and `parseArg` each process one
argument; `parseArgs` is the loop.
-/
import SecureSudoers.Fs

namespace SecureSudoers

variable {D : Type}

/-- `ValidatedArg`. -/
inductive ValidatedArg (D : Type) where
  | string (s : Str)
  | path (p : SecurePath D)
  deriving DecidableEq, Repr

def ValidatedArg.asStr : ValidatedArg D → Str
  | .string s => s
  | .path p => p.path

structure ValidatedCommand (D : Type) where
  binary : SecurePath D
  args : List (ValidatedArg D)
  isolation : IsolationSettings
  envWhitelist : List Str
  deriving DecidableEq, Repr

structure ValidationResult (D : Type) where
  command : ValidatedCommand D
  ruleId : Str
  deriving DecidableEq, Repr

structure ValidationDenial where
  reason : Str
  reasonSlug : Str
  ruleId : Option Str := none
  deriving DecidableEq, Repr

/-- `telemetry::denial_reason`. -/
inductive DenialReason where
  | missingTool
  | blockedPath
  | blockedArgument
  | missingVerb
  | unknownVerb
  | unknownFlag
  | policyError
  deriving DecidableEq, Repr

def DenialReason.slug : DenialReason → Str
  | .missingTool => "missing_tool"
  | .blockedPath => "blocked_path"
  | .blockedArgument => "blocked_argument"
  | .missingVerb => "missing_verb"
  | .unknownVerb => "unknown_verb"
  | .unknownFlag => "unknown_flag"
  | .policyError => "policy_error"

/-- The path check validation is given. -/
abbrev PathCheck (D : Type) := Str → ValidationContext → List Str → Except Error (SecurePath D)

/-! ## Values -/

structure ValidationParams (D : Type) where
  toolName : Str
  parameters : HashMap ParameterConfig
  blockedPaths : List Str
  check : PathCheck D

def redactedValue : Str := "[REDACTED]"

/-- `push_string_flag_value`. -/
def pushStringFlagValue (params : ValidationParams D) (flagName val : Str) (config : ParameterConfig)
    (out : List (ValidatedArg D)) : Except Error (List (ValidatedArg D)) :=
  let displayVal := if config.sensitive then redactedValue else val
  if config.isExplicitlyDisallowed val then
    .error (.validation ("Flag '" ++ flagName ++ "' argument '" ++ displayVal ++
      "' is explicitly disallowed for tool '" ++ params.toolName ++ "'"))
  else if !config.matchesAllowedOrRegex val then
    .error (.validation ("Flag '" ++ flagName ++ "' argument '" ++ displayVal ++ "' is not permitted by policy"))
  else .ok (out ++ [.string flagName, .string val])

/-- `validate_path_value`. -/
def validatePathValue (check : PathCheck D) (rawValue : Str) (config : ParameterConfig) (context : ValidationContext)
    (blockedPaths : List Str) (disallowedMsg policyMsg : Str → Bool → Str) : Except Error (SecurePath D) :=
  match check rawValue context blockedPaths with
  | .error e =>
    .error (.validation (if config.sensitive then "Access to a sensitive path was denied" else e.display))
  | .ok securePath =>
    if config.isExplicitlyDisallowed securePath.path then
      .error (.validation (disallowedMsg securePath.path config.sensitive))
    else if !config.matchesAllowedOrRegex securePath.path then
      .error (.config (policyMsg securePath.path config.sensitive))
    else .ok securePath

/-- The message of a value whose canonical path is disallowed. -/
def disallowedPathMsg (subject displayVal toolName path : Str) (isSensitive : Bool) : Str :=
  let msg := subject ++ " '" ++ displayVal ++ "' is explicitly disallowed for tool '" ++ toolName ++ "'"
  if isSensitive then msg else msg ++ " (resolved to canonical path '" ++ path ++ "')"

/-- The message of a value whose canonical path the rules do not admit. -/
def policyPathMsg (subject path : Str) (isSensitive : Bool) : Str :=
  subject ++ " canonical path '" ++ (if isSensitive then redactedValue else path) ++ "' is not permitted by policy"

/-- `push_path_flag_value`. -/
def pushPathFlagValue (params : ValidationParams D) (flagName val : Str) (config : ParameterConfig)
    (out : List (ValidatedArg D)) : Except Error (List (ValidatedArg D)) := do
  let securePath ← validatePathValue params.check val config (.flag flagName) params.blockedPaths
    (fun path isSensitive => disallowedPathMsg ("Flag '" ++ flagName ++ "' argument")
      (if isSensitive then redactedValue else val) params.toolName path isSensitive)
    (policyPathMsg ("Flag '" ++ flagName ++ "'"))
  .ok (out ++ [.string flagName, .path securePath])

/-! ## Flags -/

/-- `take_flag_value`. -/
def takeFlagValue (flagName : Str) (provided : Option Str) (iter : List Str) : Except Error (Str × List Str) :=
  match provided, iter with
  | some value, _ => .ok (value, iter)
  | none, value :: iter => .ok (value, iter)
  | none, [] => .error (.system ("Flag '" ++ flagName ++ "' requires an argument"))

/-- A flag's name, and its value where the token has one. -/
def splitFlag (flag : Str) (attachedValue : Option Str) : Str × Option Str :=
  match attachedValue with
  | some val => (flag, some val)
  | none =>
    match Str.splitOnce '=' flag with
    | some (name, value) => (name, some value)
    | none => (flag, none)

/-- `process_flag_with_value`: `none` when the flag is not declared. -/
def flagWithValue (params : ValidationParams D) (flag : Str) (attachedValue : Option Str) (iter : List Str)
    (out : List (ValidatedArg D)) : Except Error (Option (List Str × List (ValidatedArg D))) :=
  let (flagName, provided) := splitFlag flag attachedValue
  match params.parameters.get flagName with
  | none => .ok none
  | some config =>
    match config.paramType with
    | .bool =>
      if provided.isSome then .error (.system ("Flag '" ++ flagName ++ "' does not take an argument"))
      else .ok (some (iter, out ++ [.string flagName]))
    | .string => do
      let (val, iter) ← takeFlagValue flagName provided iter
      let out ← pushStringFlagValue params flagName val config out
      .ok (some (iter, out))
    | .path => do
      let (val, iter) ← takeFlagValue flagName provided iter
      let out ← pushPathFlagValue params flagName val config out
      .ok (some (iter, out))

/-- `sanitize_unknown_flag_for_error`. -/
def sanitizeUnknownFlagForError (flag : Str) : Str :=
  match Str.splitOnce '=' flag with
  | some (flagName, _) => flagName
  | none => if Str.startsWith flag "-" && !Str.startsWith flag "--" && 2 < flag.length then flag.take 2 else flag

def notPermitted (params : ValidationParams D) (flag : Str) : Error :=
  .validation ("Flag '" ++ sanitizeUnknownFlagForError flag ++ "' is not permitted for tool '" ++
    params.toolName ++ "'")

/-- `process_long_flag`, which is `process_any_flag`. -/
def processLongFlag (params : ValidationParams D) (flag : Str) (iter : List Str) (out : List (ValidatedArg D)) :
    Except Error (List Str × List (ValidatedArg D)) := do
  match ← flagWithValue params flag none iter out with
  | some done => .ok done
  | none => .error (notPermitted params flag)

/-- The short flags of a cluster, one character at a time. The first that is
not a Bool takes what is left of the token as its value, or the next argument. -/
def clusterFlags (params : ValidationParams D) : List Char → List Str → List (ValidatedArg D) →
    Except Error (List Str × List (ValidatedArg D))
  | [], iter, out => .ok (iter, out)
  | c :: chars, iter, out =>
    let s := ['-', c]
    match params.parameters.get s with
    | none => .error (notPermitted params s)
    | some config =>
      if config.paramType ≠ .bool then do
        let attachedValue := if chars = [] then none else some chars
        -- the flag `-=` looked up again without a value reads as `-` with an empty one;
        -- whether that is declared is not checked
        let done ← flagWithValue params s attachedValue iter out
        .ok (done.getD (iter, out))
      else clusterFlags params chars iter (out ++ [.string s])

/-- `process_short_flag`. -/
def processShortFlag (params : ValidationParams D) (arg : Str) (iter : List Str) (out : List (ValidatedArg D)) :
    Except Error (List Str × List (ValidatedArg D)) := do
  match ← flagWithValue params arg none iter out with
  | some done => .ok done
  | none => clusterFlags params (arg.drop 1) iter out

/-! ## Positionals -/

structure PositionalParams (D : Type) where
  toolName : Str
  context : ValidationContext
  safeRe : Regex
  config : Option ParameterConfig
  blockedPaths : List Str
  check : PathCheck D

/-- `push_positional`. -/
def pushPositional (params : PositionalParams D) (arg : Str) (out : List (ValidatedArg D)) :
    Except Error (List (ValidatedArg D)) :=
  let displayArg := if params.config.any (·.sensitive) then redactedValue else arg
  if !params.safeRe.isMatch arg then
    .error (.system ("Positional argument '" ++ displayArg ++ "' contains illegal characters"))
  else match params.config with
    | some config =>
      if config.paramType = .path then do
        let securePath ← validatePathValue params.check arg config params.context params.blockedPaths
          (disallowedPathMsg "Positional argument" displayArg params.toolName)
          (policyPathMsg "Positional argument")
        .ok (out ++ [.path securePath])
      else if config.isExplicitlyDisallowed arg then
        .error (.validation ("Positional argument '" ++ displayArg ++ "' is explicitly disallowed for tool '" ++
          params.toolName ++ "'"))
      else if !config.matchesAllowedOrRegex arg then
        .error (.validation ("Positional argument '" ++ displayArg ++ "' is not permitted by policy"))
      else pushPlain
    | none => pushPlain
where
  pushPlain : Except Error (List (ValidatedArg D)) :=
    if Str.startsWith arg "-" && 1 < Str.len arg then
      .error (.security ("Security failure: illegal flag-like positional argument '" ++ arg ++ "' in '" ++
        params.context.display ++ "' context"))
    else .ok (out ++ [.string arg])

/-- The positionals after `--`. -/
def pushPositionals (params : PositionalParams D) : List Str → List (ValidatedArg D) →
    Except Error (List (ValidatedArg D))
  | [], out => .ok out
  | arg :: rest, out => do
    let out ← pushPositional params arg out
    pushPositionals params rest out

/-! ## The command -/

/-- What the loop over the arguments reads of the policy. -/
structure CommandParams (D : Type) where
  toolName : Str
  tool : ToolPolicy
  ruleId : Str
  safeRe : Regex
  blockedPaths : List Str
  check : PathCheck D

namespace CommandParams

def flags (cmd : CommandParams D) : ValidationParams D :=
  { toolName := cmd.toolName, parameters := cmd.tool.parameters, blockedPaths := cmd.blockedPaths,
    check := cmd.check }

def positionals (cmd : CommandParams D) (context : ValidationContext) : PositionalParams D :=
  { toolName := cmd.toolName, context := context, safeRe := cmd.safeRe, config := cmd.tool.positional,
    blockedPaths := cmd.blockedPaths, check := cmd.check }

def denied (cmd : CommandParams D) (slug : DenialReason) (e : Error) : ValidationDenial :=
  { reason := e.display, reasonSlug := slug.slug, ruleId := some cmd.ruleId }

end CommandParams

/-- One argument of the loop: what is left of the arguments after it, and what has been emitted. -/
def parseArg (cmd : CommandParams D) (arg : Str) (iter : List Str) (out : List (ValidatedArg D)) :
    Except ValidationDenial (List Str × List (ValidatedArg D)) :=
  if arg = ['-', '-'] then
    ((pushPositionals (cmd.positionals .delimitedPositional) iter out).map fun out => ([], out)).mapError
      (cmd.denied .blockedArgument)
  else if Str.startsWith arg "--" then
    (processLongFlag cmd.flags arg iter out).mapError (cmd.denied .unknownFlag)
  else if Str.startsWith arg "-" && 1 < Str.len arg then
    (processShortFlag cmd.flags arg iter out).mapError (cmd.denied .unknownFlag)
  else
    ((pushPositional (cmd.positionals .positional) arg out).map fun out => (iter, out)).mapError
      (cmd.denied .blockedArgument)

/-- The loop, for at most `fuel` arguments; each takes at least one. -/
def parseArgsN (cmd : CommandParams D) : Nat → List Str → List (ValidatedArg D) →
    Except ValidationDenial (List (ValidatedArg D))
  | _, [], out => .ok out
  | 0, _ :: _, out => .ok out
  | fuel + 1, arg :: iter, out => do
    let (iter, out) ← parseArg cmd arg iter out
    parseArgsN cmd fuel iter out

/-- The loop over the arguments. -/
def parseArgs (cmd : CommandParams D) (iter : List Str) (out : List (ValidatedArg D)) :
    Except ValidationDenial (List (ValidatedArg D)) :=
  parseArgsN cmd iter.length iter out

/-- The leading verb, where the tool has verbs. -/
def takeVerb (cmd : CommandParams D) (iter : List Str) :
    Except ValidationDenial (List Str × List (ValidatedArg D)) :=
  if cmd.tool.verbs = [] then .ok (iter, [])
  else match iter with
    | [] => .error { reason := "Tool '" ++ cmd.toolName ++ "' requires a verb",
                     reasonSlug := DenialReason.missingVerb.slug, ruleId := some cmd.ruleId }
    | verb :: iter =>
      if verb ∈ cmd.tool.verbs then .ok (iter, [.string verb])
      else .error { reason := "Verb '" ++ verb ++ "' is not permitted for tool '" ++ cmd.toolName ++ "'",
                    reasonSlug := DenialReason.unknownVerb.slug, ruleId := some cmd.ruleId }

/-- The merged environment whitelist: the first occurrence of each key. -/
def mergeEnv : List Str → List Str → List Str
  | merged, [] => merged
  | merged, key :: keys => if key ∈ merged then mergeEnv merged keys else mergeEnv (merged ++ [key]) keys

/-- `validate_command`. -/
def validateCommand (check : PathCheck D) (regexNew : Str → Option Regex) (policy : SecureSudoersPolicy)
    (toolName : Str) (rawArgs : List Str) : Except ValidationDenial (ValidationResult D) :=
  match policy.tools.get toolName with
  | none => .error { reason := "Tool '" ++ toolName ++ "' is not permitted by policy",
                     reasonSlug := DenialReason.missingTool.slug }
  | some tool =>
    let ruleId := tool.id.getD toolName
    let blockedPaths := policy.globalSettings.blockedPaths
    match check tool.realBinary .positional blockedPaths with
    | .error e => .error { reason := e.display, reasonSlug := DenialReason.blockedPath.slug, ruleId := some ruleId }
    | .ok binary =>
      match regexNew policy.globalSettings.safeArgRegex with
      | none => .error { reason := "Policy contains invalid safe_arg_regex",
                         reasonSlug := DenialReason.policyError.slug, ruleId := some ruleId }
      | some safeRe => do
        let cmd : CommandParams D := { toolName, tool, ruleId, safeRe, blockedPaths, check }
        let (iter, out) ← takeVerb cmd rawArgs
        let args ← parseArgs cmd iter out
        let isolation := (tool.isolation <|> policy.globalSettings.defaultIsolation).getD {}
        let envWhitelist := mergeEnv [] (policy.globalSettings.commonEnvWhitelist ++ tool.envWhitelist)
        .ok { command := { binary, args, isolation, envWhitelist }, ruleId }

end SecureSudoers
