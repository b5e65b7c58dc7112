/-
The functions that read flags, with every slice, subtraction and `unwrap` the
source writes: `none` is a panic. `find` gives an octet and the slices take
octets, so each of them has to stand where a character starts.

Each function agrees with the one of its name in the modules above, which has
the meaning without the positions; the exception is the slice of two octets in
the record of an unknown tool: `neverPanics_iff`.
-/
import SecureSudoers.Redaction
import SecureSudoers.Validator

namespace SecureSudoers

namespace Sliced

variable {D : Type}

/-- `a - b` on `usize`. -/
def sub (a b : Nat) : Option Nat := if b ≤ a then some (a - b) else none

/-- `&xs[n..]` of a vector. -/
def vecFrom {α : Type} (xs : List α) (n : Nat) : Option (List α) := if n ≤ xs.length then some (xs.drop n) else none

/-- `char_indices().nth(n)`: where the character starts. -/
def charIndex (s : Str) (n : Nat) : Option Nat := if n < s.length then some (Str.len (s.take n)) else none

/-- `&arg[..idx]` where `arg.find('=')` is some `idx`. -/
def keyBefore (arg : Str) : Option (Option Str) :=
  match Str.find '=' arg with
  | some idx => (Str.sliceTo arg idx).map some
  | none => some none

/-! ## Flags -/

/-- `sanitize_unknown_flag_for_error`. -/
def sanitizeUnknownFlagForError (flag : Str) : Option Str :=
  match Str.splitOnce '=' flag with
  | some (flagName, _) => some flagName
  | none =>
    if Str.startsWith flag "-" && !Str.startsWith flag "--" && 2 < flag.length then
      match charIndex flag 2 with
      | some idx => Str.sliceTo flag idx
      | none => some flag
    else some flag

def notPermitted (params : ValidationParams D) (flag : Str) : Option Error :=
  (sanitizeUnknownFlagForError flag).map fun displayFlag =>
    .validation ("Flag '" ++ displayFlag ++ "' is not permitted for tool '" ++ params.toolName ++ "'")

/-- A flag's name, and its value where the token has one. -/
def splitFlag (flag : Str) (attachedValue : Option Str) : Option (Str × Option Str) :=
  match attachedValue with
  | some val => some (flag, some val)
  | none =>
    match Str.find '=' flag with
    | some idx => do
      let flagName ← Str.sliceTo flag idx
      let value ← Str.sliceFrom flag (idx + 1)
      some (flagName, some value)
    | none => some (flag, none)

/-- A flag whose name and value have been told apart. -/
def declaredFlag (params : ValidationParams D) (flagName : Str) (provided : Option Str) (iter : List Str)
    (out : List (ValidatedArg D)) : Except Error (Option (List Str × List (ValidatedArg D))) :=
  match params.parameters.get flagName with
  | none => .ok none
  | some config =>
    match config.paramType with
    | .bool =>
      if provided.isSome then .error (.system ("Flag '" ++ flagName ++ "' does not take an argument"))
      else .ok (some (iter, out ++ [.string flagName]))
    | .string => do
      let (val, iter) ← takeFlagValue flagName provided iter
      let out ← pushStringFlagValue params flagName val config out
      .ok (some (iter, out))
    | .path => do
      let (val, iter) ← takeFlagValue flagName provided iter
      let out ← pushPathFlagValue params flagName val config out
      .ok (some (iter, out))

/-- `process_flag_with_value`. -/
def flagWithValue (params : ValidationParams D) (flag : Str) (attachedValue : Option Str) (iter : List Str)
    (out : List (ValidatedArg D)) : Option (Except Error (Option (List Str × List (ValidatedArg D)))) := do
  let (flagName, provided) ← splitFlag flag attachedValue
  some (declaredFlag params flagName provided iter out)

/-- `process_long_flag`. -/
def processLongFlag (params : ValidationParams D) (flag : Str) (iter : List Str) (out : List (ValidatedArg D)) :
    Option (Except Error (List Str × List (ValidatedArg D))) := do
  match ← flagWithValue params flag none iter out with
  | .error e => some (.error e)
  | .ok (some done) => some (.ok done)
  | .ok none => (notPermitted params flag).map .error

/-- What follows the `i`-th character of a cluster, if anything does. -/
def attachedRest (chars : List Char) (i : Nat) : Option (Option Str) :=
  if i + 1 < chars.length then (vecFrom chars (i + 1)).map some else some none

/-- The loop over the characters `chars` of a cluster, from the `i`-th on. -/
def clusterFlags (params : ValidationParams D) (chars : List Char) : Nat → List Char → List Str →
    List (ValidatedArg D) → Option (Except Error (List Str × List (ValidatedArg D)))
  | _, [], iter, out => some (.ok (iter, out))
  | i, c :: rest, iter, out =>
    let s := ['-', c]
    match params.parameters.get s with
    | none => (notPermitted params s).map .error
    | some config =>
      if config.paramType ≠ .bool then do
        let attachedValue ← attachedRest chars i
        match ← flagWithValue params s attachedValue iter out with
        | .error e => some (.error e)
        | .ok done => some (.ok (done.getD (iter, out)))
      else clusterFlags params chars (i + 1) rest iter (out ++ [.string s])

/-- `process_short_flag`. -/
def processShortFlag (params : ValidationParams D) (arg : Str) (iter : List Str) (out : List (ValidatedArg D)) :
    Option (Except Error (List Str × List (ValidatedArg D))) := do
  match ← flagWithValue params arg none iter out with
  | .error e => some (.error e)
  | .ok (some done) => some (.ok done)
  | .ok none =>
    let chars ← Str.sliceFrom arg 1
    clusterFlags params chars 0 chars iter out

variable {params : ValidationParams D} {arg flag : Str} {iter : List Str} {out : List (ValidatedArg D)}

theorem keyBefore_eq : keyBefore arg = some ((Str.splitOnce '=' arg).map Prod.fst) := by
  unfold keyBefore
  cases hsp : Str.splitOnce '=' arg with
  | none => rw [find_eq, hsp]; rfl
  | some kv =>
    obtain ⟨hfind, hto, -, -⟩ := sliceTo_find (by decide) hsp
    rw [hfind]
    dsimp only
    rw [hto]
    rfl

theorem sanitizeUnknownFlagForError_eq :
    sanitizeUnknownFlagForError flag = some (SecureSudoers.sanitizeUnknownFlagForError flag) := by
  unfold sanitizeUnknownFlagForError SecureSudoers.sanitizeUnknownFlagForError
  cases Str.splitOnce '=' flag with
  | some kv => rfl
  | none =>
    dsimp only
    split
    · next h =>
      have hlen : 2 < flag.length := by simpa using (Bool.and_eq_true_iff.mp h).2
      have hslice := @sliceTo_len (flag.drop 2) (flag.take 2)
      rw [List.take_append_drop] at hslice
      rw [charIndex, if_pos hlen]
      exact hslice
    · rfl

theorem notPermitted_eq : notPermitted params flag = some (SecureSudoers.notPermitted params flag) := by
  rw [notPermitted, sanitizeUnknownFlagForError_eq]
  rfl

theorem splitFlag_eq {attachedValue : Option Str} :
    splitFlag flag attachedValue = some (SecureSudoers.splitFlag flag attachedValue) := by
  unfold splitFlag SecureSudoers.splitFlag
  cases attachedValue with
  | some val => rfl
  | none =>
    cases hsp : Str.splitOnce '=' flag with
    | none => rw [find_eq, hsp]; rfl
    | some kv =>
      obtain ⟨hfind, hto, hfrom, -⟩ := sliceTo_find (by decide) hsp
      rw [hfind]
      simp [hto, hfrom]

theorem flagWithValue_eq {attachedValue : Option Str} : flagWithValue params flag attachedValue iter out =
    some (SecureSudoers.flagWithValue params flag attachedValue iter out) := by
  rw [flagWithValue, splitFlag_eq]
  rfl

theorem processLongFlag_eq :
    processLongFlag params flag iter out = some (SecureSudoers.processLongFlag params flag iter out) := by
  unfold processLongFlag SecureSudoers.processLongFlag
  rw [flagWithValue_eq, notPermitted_eq]
  cases SecureSudoers.flagWithValue params flag none iter out with
  | error e => rfl
  | ok done => cases done <;> rfl

theorem attachedRest_eq {seen rest : List Char} {c : Char} :
    attachedRest (seen ++ c :: rest) seen.length = some (if rest = [] then none else some rest) := by
  have hlen : (seen ++ c :: rest).length = seen.length + 1 + rest.length := by
    rw [List.length_append, List.length_cons]
    omega
  unfold attachedRest vecFrom
  by_cases hrest : rest = []
  · rw [if_neg (by simp [hrest]), if_pos hrest]
  · have hpos := List.length_pos_iff.mpr hrest
    have hdrop : (seen ++ c :: rest).drop (seen.length + 1) = rest := by
      rw [← List.drop_drop, List.drop_left]
      rfl
    rw [if_pos (by omega), if_neg hrest, if_pos (by omega), hdrop]
    rfl

theorem clusterFlags_eq : ∀ {rest seen : List Char} {out : List (ValidatedArg D)},
    clusterFlags params (seen ++ rest) seen.length rest iter out = some (SecureSudoers.clusterFlags params rest iter out)
  | [], _, _ => rfl
  | c :: rest, seen, out => by
    unfold clusterFlags SecureSudoers.clusterFlags
    dsimp only
    cases params.parameters.get ['-', c] with
    | none => rw [notPermitted_eq]; rfl
    | some config =>
      dsimp only
      split
      · rw [attachedRest_eq]
        simp only [Option.bind_eq_bind, Option.bind_some, flagWithValue_eq]
        cases SecureSudoers.flagWithValue params ['-', c] (if rest = [] then none else some rest) iter out <;> rfl
      · have hnext := @clusterFlags_eq rest (seen ++ [c]) (out ++ [.string ['-', c]])
        rw [List.append_assoc, List.length_append] at hnext
        exact hnext

theorem sliceFrom_dash {cs : Str} : Str.sliceFrom ('-' :: cs) 1 = some cs := @sliceFrom_len cs ['-']

theorem processShortFlag_eq (hdash : Str.startsWith arg "-" = true) :
    processShortFlag params arg iter out = some (SecureSudoers.processShortFlag params arg iter out) := by
  obtain ⟨cs, rfl⟩ := startsWith_dash.mp hdash
  unfold processShortFlag SecureSudoers.processShortFlag
  rw [flagWithValue_eq]
  cases SecureSudoers.flagWithValue params ('-' :: cs) none iter out with
  | error e => rfl
  | ok done =>
    cases done with
    | some done => rfl
    | none =>
      simp only [Option.bind_eq_bind, Option.bind_some, sliceFrom_dash]
      exact @clusterFlags_eq D params iter cs [] out

/-! ## Positionals and the command -/

/-- `push_positional`. -/
def pushPositional (params : PositionalParams D) (arg : Str) (out : List (ValidatedArg D)) :
    Option (Except Error (List (ValidatedArg D))) :=
  let isPath := params.config.any (·.paramType = .path)
  let displayArg := if params.config.any (·.sensitive) then redactedValue else arg
  if !params.safeRe.isMatch arg then
    some (.error (.system ("Positional argument '" ++ displayArg ++ "' contains illegal characters")))
  else if isPath then do
    -- `params.config.as_ref().unwrap()`
    let config ← params.config
    some (do
      let securePath ← validatePathValue params.check arg config params.context params.blockedPaths
        (disallowedPathMsg "Positional argument" displayArg params.toolName)
        (policyPathMsg "Positional argument")
      .ok (out ++ [.path securePath]))
  else some (match params.config with
    | some config =>
      if config.isExplicitlyDisallowed arg then
        .error (.validation ("Positional argument '" ++ displayArg ++ "' is explicitly disallowed for tool '" ++
          params.toolName ++ "'"))
      else if !config.matchesAllowedOrRegex arg then
        .error (.validation ("Positional argument '" ++ displayArg ++ "' is not permitted by policy"))
      else pushPositional.pushPlain params arg out
    | none => pushPositional.pushPlain params arg out)

def pushPositionals (params : PositionalParams D) : List Str → List (ValidatedArg D) →
    Option (Except Error (List (ValidatedArg D)))
  | [], out => some (.ok out)
  | arg :: rest, out => do
    match ← pushPositional params arg out with
    | .error e => some (.error e)
    | .ok out => pushPositionals params rest out

theorem pushPositional_eq {params : PositionalParams D} :
    pushPositional params arg out = some (SecureSudoers.pushPositional params arg out) := by
  unfold pushPositional SecureSudoers.pushPositional
  dsimp only
  split
  · rfl
  · cases params.config with
    | none => rfl
    | some config =>
      simp only [Option.any_some, decide_eq_true_eq]
      split <;> rfl

theorem pushPositionals_eq {params : PositionalParams D} : ∀ {args : List Str} {out : List (ValidatedArg D)},
    pushPositionals params args out = some (SecureSudoers.pushPositionals params args out)
  | [], _ => rfl
  | arg :: rest, out => by
    unfold pushPositionals SecureSudoers.pushPositionals
    rw [pushPositional_eq]
    cases SecureSudoers.pushPositional params arg out with
    | error e => rfl
    | ok out' => exact pushPositionals_eq

/-- One argument of the loop. -/
def parseArg (cmd : CommandParams D) (arg : Str) (iter : List Str) (out : List (ValidatedArg D)) :
    Option (Except ValidationDenial (List Str × List (ValidatedArg D))) :=
  if arg = ['-', '-'] then
    (pushPositionals (cmd.positionals .delimitedPositional) iter out).map fun r =>
      (r.map fun out => ([], out)).mapError (cmd.denied .blockedArgument)
  else if Str.startsWith arg "--" then
    (processLongFlag cmd.flags arg iter out).map (·.mapError (cmd.denied .unknownFlag))
  else if Str.startsWith arg "-" && 1 < Str.len arg then
    (processShortFlag cmd.flags arg iter out).map (·.mapError (cmd.denied .unknownFlag))
  else
    (pushPositional (cmd.positionals .positional) arg out).map fun r =>
      (r.map fun out => (iter, out)).mapError (cmd.denied .blockedArgument)

/-- The loop, for at most `fuel` arguments. -/
def parseArgsN (cmd : CommandParams D) : Nat → List Str → List (ValidatedArg D) →
    Option (Except ValidationDenial (List (ValidatedArg D)))
  | _, [], out => some (.ok out)
  | 0, _ :: _, out => some (.ok out)
  | fuel + 1, arg :: iter, out => do
    match ← parseArg cmd arg iter out with
    | .error e => some (.error e)
    | .ok (iter, out) => parseArgsN cmd fuel iter out

/-- `validate_command`. -/
def validateCommand (check : PathCheck D) (regexNew : Str → Option Regex) (policy : SecureSudoersPolicy)
    (toolName : Str) (rawArgs : List Str) : Option (Except ValidationDenial (ValidationResult D)) :=
  match policy.tools.get toolName with
  | none => some (.error { reason := "Tool '" ++ toolName ++ "' is not permitted by policy",
                           reasonSlug := DenialReason.missingTool.slug })
  | some tool =>
    let ruleId := tool.id.getD toolName
    let blockedPaths := policy.globalSettings.blockedPaths
    match check tool.realBinary .positional blockedPaths with
    | .error e =>
      some (.error { reason := e.display, reasonSlug := DenialReason.blockedPath.slug, ruleId := some ruleId })
    | .ok binary =>
      match regexNew policy.globalSettings.safeArgRegex with
      | none => some (.error { reason := "Policy contains invalid safe_arg_regex",
                               reasonSlug := DenialReason.policyError.slug, ruleId := some ruleId })
      | some safeRe =>
        let cmd : CommandParams D := { toolName, tool, ruleId, safeRe, blockedPaths, check }
        match takeVerb cmd rawArgs with
        | .error e => some (.error e)
        | .ok (iter, out) => (parseArgsN cmd iter.length iter out).map fun r => r.map fun args =>
          let isolation := (tool.isolation <|> policy.globalSettings.defaultIsolation).getD {}
          let envWhitelist := mergeEnv [] (policy.globalSettings.commonEnvWhitelist ++ tool.envWhitelist)
          { command := { binary, args, isolation, envWhitelist }, ruleId }

variable {cmd : CommandParams D}

theorem parseArg_eq : parseArg cmd arg iter out = some (SecureSudoers.parseArg cmd arg iter out) := by
  unfold parseArg SecureSudoers.parseArg
  split
  · rw [pushPositionals_eq]
    rfl
  · split
    · rw [processLongFlag_eq]
      rfl
    · split
      · next hs =>
        rw [processShortFlag_eq (Bool.and_eq_true_iff.mp hs).1]
        rfl
      · rw [pushPositional_eq]
        rfl

theorem parseArgsN_eq : ∀ {fuel : Nat} {iter : List Str} {out : List (ValidatedArg D)},
    parseArgsN cmd fuel iter out = some (SecureSudoers.parseArgsN cmd fuel iter out)
  | 0, [], _ | _ + 1, [], _ => by
    unfold parseArgsN SecureSudoers.parseArgsN
    rfl
  | 0, _ :: _, _ => rfl
  | fuel + 1, arg :: iter, out => by
    unfold parseArgsN SecureSudoers.parseArgsN
    rw [parseArg_eq]
    cases SecureSudoers.parseArg cmd arg iter out with
    | error e => rfl
    | ok r => exact parseArgsN_eq

/-- **Validation never panics.** -/
theorem validateCommand_eq {check : PathCheck D} {regexNew : Str → Option Regex} {policy : SecureSudoersPolicy}
    {toolName : Str} {rawArgs : List Str} : validateCommand check regexNew policy toolName rawArgs =
      some (SecureSudoers.validateCommand check regexNew policy toolName rawArgs) := by
  unfold validateCommand SecureSudoers.validateCommand
  cases policy.tools.get toolName with
  | none => rfl
  | some tool =>
    dsimp only
    cases check tool.realBinary .positional policy.globalSettings.blockedPaths with
    | error e => rfl
    | ok binary =>
      dsimp only
      cases regexNew policy.globalSettings.safeArgRegex with
      | none => rfl
      | some safeRe =>
        dsimp only
        generalize (⟨toolName, tool, tool.id.getD toolName, safeRe, policy.globalSettings.blockedPaths, check⟩ :
          CommandParams D) = cmd
        cases takeVerb cmd rawArgs with
        | error e => rfl
        | ok r =>
          obtain ⟨iter, out⟩ := r
          dsimp only
          rw [parseArgsN_eq]
          show some ((SecureSudoers.parseArgs cmd iter out).map _) = some (SecureSudoers.parseArgs cmd iter out >>= _)
          cases SecureSudoers.parseArgs cmd iter out <;> rfl

/-! ## The record -/

variable {tool : ToolPolicy} {s : RedactState}

/-- `is_known_flag_argument`. -/
def isKnownFlagArgument (arg : Str) (parameters : HashMap ParameterConfig) : Option Bool :=
  if Str.startsWith arg "--" then do
    match ← keyBefore arg with
    | some key => some (parameters.containsKey key)
    | none => some (parameters.containsKey arg)
  else if !Str.startsWith arg "-" || arg == ['-'] then some false
  else if parameters.containsKey arg then some true
  else (Str.sliceFrom arg 1).map (knownCluster parameters)

/-- The loop over the declared flags. -/
def attachedEntry (arg : Str) : List (Str × ParameterConfig) → Option (Option (Str × Bool))
  | [] => some none
  | (fName, config) :: rest =>
    if sensitiveShort fName config then do
      let flagChar ← fName[1]?
      if isShort arg then
        match Str.find flagChar arg with
        | some pos => do
          let last ← sub (Str.len arg) 1
          if pos < last then do
            let head ← Str.sliceTo arg (pos + 1)
            some (some (head ++ redactedEntry, false))
          else some (some (arg, true))
        | none => attachedEntry arg rest
      else attachedEntry arg rest
    else attachedEntry arg rest

/-- The last part of an iteration. -/
def redactWhole (tool : ToolPolicy) (s : RedactState) (arg : Str) : Option (List Str × RedactState) :=
  if isSensitive tool.parameters arg then some ([arg], { s with skipNext := true })
  else if !s.afterDoubleDash && Str.startsWith arg "--" then do
    match ← keyBefore arg with
    | some key => some (if !tool.parameters.containsKey key then ([key ++ "=" ++ redactedEntry], s) else ([], s))
    | none => some (if !tool.parameters.containsKey arg then ([arg], { s with skipNext := true }) else ([], s))
  else if sensitivePositionals tool then
    if Str.startsWith arg "-" then do
      let known ← isKnownFlagArgument arg tool.parameters
      some (if known then ([arg], s) else ([redactedEntry], s))
    else some ([redactedEntry], s)
  else some ([arg], s)

/-- One iteration. -/
def redactArg (tool : ToolPolicy) (s : RedactState) (arg : Str) : Option (List Str × RedactState) :=
  if s.skipNext then some ([redactedEntry], { s with skipNext := false })
  else if arg = ['-', '-'] then some ([arg], { s with afterDoubleDash := true })
  else if s.afterDoubleDash && sensitivePositionals tool then some ([redactedEntry], s)
  else do
    match (← keyBefore arg).filter (isSensitive tool.parameters) with
    | some key => some ([key ++ "=" ++ redactedEntry], s)
    | none =>
      match ← attachedEntry arg tool.parameters.entries with
      | some (entry, skipNext) => some ([entry], { s with skipNext })
      | none => redactWhole tool s arg

/-- The loop over the arguments of a tool in the policy. -/
def redactLoop (tool : ToolPolicy) : RedactState → List Str → Option (List Str)
  | _, [] => some []
  | s, arg :: rest => do
    let (entries, s') ← redactArg tool s arg
    let tail ← redactLoop tool s' rest
    some (entries ++ tail)

/-- An argument of a tool that is not in the policy, when only keys are shown. -/
def redactUnknown (arg : Str) : Option Str := do
  match ← keyBefore arg with
  | some key => some (if Str.startsWith key "-" then key ++ "=" ++ redactedEntry else redactedEntry)
  | none =>
    if Str.startsWith arg "-" then
      if !Str.startsWith arg "--" && 2 < Str.len arg then do
        let head ← Str.sliceTo arg 2
        some (head ++ redactedEntry)
      else some arg
    else some redactedEntry

/-- `redact_args`. -/
def redactArgs (args : List Str) (policy : SecureSudoersPolicy) (toolName : Str) : Option (List Str) :=
  match policy.tools.get toolName with
  | some tool => redactLoop tool {} args
  | none =>
    match policy.globalSettings.unauthorizedAuditMode with
    | .minimal => some ["[" ++ Nat.toDigits 10 args.length ++ " arguments suppressed]"]
    | .keysOnly => args.mapM redactUnknown
    | .full => some args

theorem isKnownFlagArgument_eq {parameters : HashMap ParameterConfig} :
    isKnownFlagArgument arg parameters = some (SecureSudoers.isKnownFlagArgument arg parameters) := by
  unfold isKnownFlagArgument SecureSudoers.isKnownFlagArgument
  rw [keyBefore_eq]
  split
  · cases Str.splitOnce '=' arg <;> rfl
  · split
    · rfl
    · split
      · rfl
      · next hdash _ =>
        simp only [Bool.or_eq_true, not_or, Bool.not_eq_true', Bool.not_eq_false] at hdash
        obtain ⟨cs, rfl⟩ := startsWith_dash.mp hdash.1
        rw [sliceFrom_dash]
        rfl

/-- A short flag has an octet to take away. -/
theorem sub_len (h : isShort arg = true) : sub (Str.len arg) 1 = some (Str.len arg - 1) := by
  obtain ⟨cs, rfl⟩ := startsWith_dash.mp (Bool.and_eq_true_iff.mp h).1
  have hdash := ('-' : Char).utf8Size_pos
  refine if_pos ?_
  rw [len_cons]
  omega

theorem attachedEntry_eq : ∀ {entries : List (Str × ParameterConfig)},
    attachedEntry arg entries = SecureSudoers.attachedEntry arg entries
  | [] => rfl
  | (fName, config) :: rest => by
    unfold attachedEntry SecureSudoers.attachedEntry
    rw [attachedEntry_eq]
    split
    · cases fName[1]? with
      | none => rfl
      | some flagChar =>
        simp only [Option.bind_eq_bind, Option.bind_some]
        split
        · next hshort =>
          rw [sub_len hshort]
          rfl
        · rfl
    · rfl

theorem redactWhole_eq : redactWhole tool s arg = some (SecureSudoers.redactWhole tool s arg) := by
  unfold redactWhole SecureSudoers.redactWhole
  rw [keyBefore_eq, isKnownFlagArgument_eq]
  split
  · rfl
  · split
    · cases Str.splitOnce '=' arg <;> rfl
    · split
      · cases Str.startsWith arg "-" <;> rfl
      · rfl

theorem redactArg_eq : redactArg tool s arg = SecureSudoers.redactArg tool s arg := by
  unfold redactArg SecureSudoers.redactArg
  rw [keyBefore_eq, attachedEntry_eq]
  split
  · rfl
  · split
    · rfl
    · split
      · rfl
      · have hkey : ((Str.splitOnce '=' arg).map Prod.fst).filter (isSensitive tool.parameters) =
            sensitiveKey tool.parameters arg := by
          unfold sensitiveKey
          cases Str.splitOnce '=' arg <;> rfl
        simp only [Option.bind_eq_bind, Option.bind_some, hkey]
        cases sensitiveKey tool.parameters arg with
        | some key => rfl
        | none =>
          dsimp only
          congr 1
          funext found
          cases found with
          | some entry => rfl
          | none => exact redactWhole_eq

theorem redactLoop_eq : ∀ {args : List Str} {s : RedactState},
    redactLoop tool s args = SecureSudoers.redactLoop tool s args
  | [], _ => rfl
  | arg :: rest, s => by
    simp only [redactLoop, SecureSudoers.redactLoop, redactArg_eq, redactLoop_eq]

theorem redactUnknown_eq : redactUnknown arg = SecureSudoers.redactUnknown arg := by
  unfold redactUnknown SecureSudoers.redactUnknown
  rw [keyBefore_eq]
  cases Str.splitOnce '=' arg <;> rfl

/-- The record with its slices is the record. -/
theorem redactArgs_eq {args : List Str} {policy : SecureSudoersPolicy} {toolName : Str} :
    redactArgs args policy toolName = SecureSudoers.redactArgs args policy toolName := by
  have hunknown : redactUnknown = SecureSudoers.redactUnknown := funext fun _ => redactUnknown_eq
  unfold redactArgs SecureSudoers.redactArgs
  cases policy.tools.get toolName with
  | some tool => exact redactLoop_eq
  | none =>
    cases policy.globalSettings.unauthorizedAuditMode with
    | keysOnly => rw [hunknown]
    | minimal | full => rfl

end Sliced

/-! ## Panics -/

variable {D : Type}

/-- Neither function panics. -/
def NeverPanics (check : PathCheck D) (regexNew : Str → Option Regex) (policy : SecureSudoersPolicy) (toolName : Str)
    (args : List Str) : Prop :=
  Sliced.validateCommand check regexNew policy toolName args ≠ none ∧ Sliced.redactArgs args policy toolName ≠ none

/-- **No slice, subtraction or unwrap panics**, but for the record of an unknown
tool whose keys are shown, where an argument is cut inside a letter. -/
theorem neverPanics_iff {check : PathCheck D} {regexNew : Str → Option Regex} {policy : SecureSudoersPolicy}
    {toolName : Str} {args : List Str} : NeverPanics check regexNew policy toolName args ↔
      ¬(policy.tools.get toolName = none ∧ policy.globalSettings.unauthorizedAuditMode = .keysOnly ∧
        ∃ arg ∈ args, CutsLetter arg) := by
  rw [NeverPanics, Sliced.validateCommand_eq, Sliced.redactArgs_eq, ne_eq, ne_eq, redactArgs_eq_none]
  exact and_iff_right (Option.some_ne_none _)

/-- An argument of a dash and an e with an accent, of a tool no policy has. -/
theorem panics_accent : ¬∀ (D : Type) (check : PathCheck D) (regexNew : Str → Option Regex)
    (policy : SecureSudoersPolicy) (toolName : Str) (args : List Str),
    NeverPanics check regexNew policy toolName args := by
  intro h
  have hpolicy := h Nat (fun _ _ _ => .error (.io .ENOENT)) (fun _ => none)
    { globalSettings := { unauthorizedAuditMode := .keysOnly }, tools := .empty } "db" ["-é"]
  exact hpolicy.2 (by decide)

end SecureSudoers
