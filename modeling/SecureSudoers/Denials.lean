/-
What a denial says. A command is denied at one place by one check: `deniedAt`
reads the arguments as `readArgs` does and names both. The reason is the error
of the code's own functions at that place (`siteReason`), so two command lines
that are read alike and differ in sensitive values alone are told the same,
unless the check is the one for flag-like positionals, which formats the raw
argument.
-/
import SecureSudoers.RedactionSecrecy

namespace SecureSudoers

variable {D : Type} {cmd : CommandParams D} {iter iter' : List Str} {out out₀ : List (ValidatedArg D)}

/-- The checks that deny a command. -/
inductive Check where
  | binaryPath
  | safeArgRegex
  | missingVerb
  | unknownVerb
  | unknownFlag
  | noArgument
  | missingArgument
  | disallowed
  | notPermitted
  | path
  | pathDisallowed
  | pathNotPermitted
  | illegalCharacters
  | flagLike
  deriving DecidableEq, Repr

/-- Where a command is denied: before any argument, at its verb, at an item, or
at a token that begins none. -/
inductive Site where
  | command
  | verb (verb : Str)
  | item (item : Item)
  | token (arg : Str)
  deriving DecidableEq, Repr

/-- A denial: what was read and accepted, and what the check denies. -/
structure Denied where
  verb : List Str := []
  items : List Item := []
  site : Site
  check : Check
  deriving DecidableEq, Repr

/-! ## Which check denies -/

/-- The check of its parameter that a value fails. -/
def configCheck (cmd : CommandParams D) (config : ParameterConfig) (context : ValidationContext) (value : Str) :
    Option Check :=
  if config.paramType = .path then
    match cmd.check value context cmd.blockedPaths with
    | .error _ => some .path
    | .ok p =>
      if config.isExplicitlyDisallowed p.path then some .pathDisallowed
      else if !config.matchesAllowedOrRegex p.path then some .pathNotPermitted
      else none
  else if config.isExplicitlyDisallowed value then some .disallowed
  else if !config.matchesAllowedOrRegex value then some .notPermitted
  else none

/-- The check that the flag `name` with a value fails. -/
def flagCheck (cmd : CommandParams D) (name value : Str) : Option Check :=
  match cmd.tool.parameters.get name with
  | none => none
  | some config => if config.paramType = .bool then some .noArgument else configCheck cmd config (.flag name) value

/-- The check that a positional fails. -/
def positionalCheck (cmd : CommandParams D) (context : ValidationContext) (raw : Str) : Option Check :=
  if !cmd.safeRe.isMatch raw then some .illegalCharacters
  else match cmd.tool.positional with
    | none => plainCheck
    | some config =>
      match configCheck cmd config context raw with
      | some check => some check
      | none => if config.paramType = .path then none else plainCheck
where
  plainCheck : Option Check := if Str.startsWith raw "-" && 1 < Str.len raw then some .flagLike else none

/-- The check that an item fails. -/
def itemCheck (cmd : CommandParams D) : Item → Option Check
  | .flag _ | .cluster _ | .delimiter => none
  | .equals name value | .separate name value => flagCheck cmd name value
  | .clusterSeparate _ c value | .attached _ c value => flagCheck cmd ['-', c] value
  | .trailingEq _ => flagCheck cmd ['-'] []
  | .positional context raw => positionalCheck cmd context raw

/-- The check that a cluster fails which begins no item. -/
def clusterCheck (parameters : HashMap ParameterConfig) : List Char → Check
  | [] => .unknownFlag
  | c :: chars =>
    match parameters.get ['-', c] with
    | none => .unknownFlag
    | some config => if config.paramType = .bool then clusterCheck parameters chars else .missingArgument

/-- The check that a token fails which begins no item. -/
def tokenCheck (parameters : HashMap ParameterConfig) (arg : Str) : Check :=
  match parameters.get (splitFlag arg none).1 with
  | some config => if config.paramType = .bool then .noArgument else .missingArgument
  | none => if Str.startsWith arg "--" then .unknownFlag else clusterCheck parameters (arg.drop 1)

/-- The first item that a check denies. -/
def deniedItem (cmd : CommandParams D) (verb : List Str) : List Item → List Item → Option Denied
  | _, [] => none
  | before, item :: items =>
    match itemCheck cmd item with
    | some check => some { verb := verb, items := before, site := .item item, check := check }
    | none => deniedItem cmd verb (before ++ [item]) items

def deniedArgsN (cmd : CommandParams D) (verb : List Str) : Nat → List Item → List Str → Option Denied
  | _, _, [] => none
  | 0, _, _ :: _ => none
  | fuel + 1, before, arg :: iter =>
    match readArg cmd.tool.parameters arg iter with
    | none => some { verb := verb, items := before, site := .token arg, check := tokenCheck cmd.tool.parameters arg }
    | some (items, iter) =>
      match deniedItem cmd verb before items with
      | some denied => some denied
      | none => deniedArgsN cmd verb fuel (before ++ items) iter

/-- Where the arguments after the verb are denied, and by which check. -/
def deniedArgs (cmd : CommandParams D) (verb : List Str) (iter : List Str) : Option Denied :=
  deniedArgsN cmd verb iter.length [] iter

/-- Where a command of a declared tool is denied, and by which check. -/
def deniedAt (check : PathCheck D) (regexNew : Str → Option Regex) (policy : SecureSudoersPolicy) (toolName : Str)
    (tool : ToolPolicy) (args : List Str) : Option Denied :=
  match check tool.realBinary .positional policy.globalSettings.blockedPaths with
  | .error _ => some { site := .command, check := .binaryPath }
  | .ok _ =>
    match regexNew policy.globalSettings.safeArgRegex with
    | none => some { site := .command, check := .safeArgRegex }
    | some safeRe =>
      let cmd := commandParams check policy toolName tool safeRe
      if tool.verbs = [] then deniedArgs cmd [] args
      else match args with
        | [] => some { site := .command, check := .missingVerb }
        | verb :: rest =>
          if verb ∈ tool.verbs then deniedArgs cmd [verb] rest
          else some { site := .verb verb, check := .unknownVerb }

/-! ## The error at a place -/

/-- The error of a computation that fails. -/
def errorOf {ε α : Type} : Except ε α → Option ε
  | .error e => some e
  | .ok _ => none

@[simp] theorem errorOf_error {ε α : Type} {e : ε} : errorOf (.error e : Except ε α) = some e := rfl

@[simp] theorem errorOf_ok {ε α : Type} {a : α} : errorOf (.ok a : Except ε α) = none := rfl

@[simp] theorem errorOf_map {ε α β : Type} {f : α → β} {x : Except ε α} : errorOf (x.map f) = errorOf x := by
  cases x <;> rfl

@[simp] theorem errorOf_mapError {ε ε' α : Type} {f : ε → ε'} {x : Except ε α} :
    errorOf (x.mapError f) = (errorOf x).map f := by
  cases x <;> rfl

/-- What follows a computation and does not fail leaves its error. -/
theorem errorOf_bind {ε α β : Type} {x : Except ε α} {f : α → Except ε β} (h : ∀ a, errorOf (f a) = none) :
    errorOf (x >>= f) = errorOf x := by
  cases x with
  | error e => rfl
  | ok a => exact h a

/-- The error the code gives for the flag `name` with a value. -/
def flagError (cmd : CommandParams D) (name value : Str) : Option Error :=
  errorOf (flagWithValue cmd.flags name (some value) [] [])

def positionalError (cmd : CommandParams D) (context : ValidationContext) (raw : Str) : Option Error :=
  errorOf (pushPositional (cmd.positionals context) raw [])

def itemError (cmd : CommandParams D) : Item → Option Error
  | .flag _ | .cluster _ | .delimiter => none
  | .equals name value | .separate name value => flagError cmd name value
  | .clusterSeparate _ c value | .attached _ c value => flagError cmd ['-', c] value
  | .trailingEq _ => flagError cmd ['-'] []
  | .positional context raw => positionalError cmd context raw

/-- The reason the code gives at an argument. -/
def siteReason (cmd : CommandParams D) : Site → Option Str
  | .command | .verb _ => none
  | .item item => (itemError cmd item).map Error.display
  | .token arg => (errorOf (parseArg cmd arg [] [])).map (·.reason)

/-! ## What has been emitted plays no role -/

theorem pushStringFlagValue_error {name val : Str} {config : ParameterConfig} :
    errorOf (pushStringFlagValue cmd.flags name val config out) =
      errorOf (pushStringFlagValue cmd.flags name val config []) := by
  unfold pushStringFlagValue
  extract_lets displayVal
  split
  · rfl
  · split <;> rfl

theorem pushPathFlagValue_error {name val : Str} {config : ParameterConfig} :
    errorOf (pushPathFlagValue cmd.flags name val config out) =
      errorOf (pushPathFlagValue cmd.flags name val config []) := by
  unfold pushPathFlagValue
  rw [errorOf_bind (fun _ => rfl), errorOf_bind (fun _ => rfl)]

/-- **A flag's error is the one of its name with its value.** -/
theorem flagWithValue_error {flag name val : Str} {attachedValue provided : Option Str}
    (hsplit : splitFlag flag attachedValue = (name, provided))
    (htake : takeFlagValue name provided iter = .ok (val, iter'))
    (hbool : ∀ config, cmd.tool.parameters.get name = some config → config.paramType = .bool →
      provided.isSome = true) :
    errorOf (flagWithValue cmd.flags flag attachedValue iter out) = flagError cmd name val := by
  have hparams : cmd.flags.parameters = cmd.tool.parameters := rfl
  unfold flagError flagWithValue
  rw [hsplit]
  dsimp only [splitFlag]
  rw [hparams]
  cases hg : cmd.tool.parameters.get name with
  | none => rfl
  | some config =>
    cases ht : config.paramType with
    | bool => simp [ht, hbool config hg ht]
    | string =>
      simp only [ht]
      rw [htake]
      show errorOf (pushStringFlagValue cmd.flags name val config out >>= _) =
        errorOf (pushStringFlagValue cmd.flags name val config [] >>= _)
      rw [errorOf_bind (fun _ => rfl), errorOf_bind (fun _ => rfl), pushStringFlagValue_error]
    | path =>
      simp only [ht]
      rw [htake]
      show errorOf (pushPathFlagValue cmd.flags name val config out >>= _) =
        errorOf (pushPathFlagValue cmd.flags name val config [] >>= _)
      rw [errorOf_bind (fun _ => rfl), errorOf_bind (fun _ => rfl), pushPathFlagValue_error]

theorem pushPositional_error {context : ValidationContext} {raw : Str} :
    errorOf (pushPositional (cmd.positionals context) raw out) = positionalError cmd context raw := by
  have hplain : errorOf (pushPositional.pushPlain (cmd.positionals context) raw out) =
      errorOf (pushPositional.pushPlain (cmd.positionals context) raw []) := by
    unfold pushPositional.pushPlain
    split <;> rfl
  unfold positionalError pushPositional
  extract_lets displayArg
  split
  · rfl
  · split
    · split
      · rw [errorOf_bind (fun _ => rfl), errorOf_bind (fun _ => rfl)]
      · split
        · rfl
        · split
          · rfl
          · exact hplain
    · exact hplain

/-! ## A check denies where the code fails -/

theorem pushStringFlagValue_denied {name val : Str} {config : ParameterConfig} (ht : config.paramType ≠ .path) :
    (errorOf (pushStringFlagValue cmd.flags name val config [])).isSome =
      (configCheck cmd config (.flag name) val).isSome := by
  unfold pushStringFlagValue configCheck
  rw [if_neg ht]
  cases config.isExplicitlyDisallowed val <;> cases config.matchesAllowedOrRegex val <;> rfl

theorem validatePathValue_denied {context : ValidationContext} {raw : Str} {config : ParameterConfig}
    {m₁ m₂ : Str → Bool → Str} (ht : config.paramType = .path) :
    (errorOf (validatePathValue cmd.check raw config context cmd.blockedPaths m₁ m₂)).isSome =
      (configCheck cmd config context raw).isSome := by
  unfold validatePathValue configCheck
  rw [if_pos ht]
  cases cmd.check raw context cmd.blockedPaths with
  | error e => rfl
  | ok p =>
    dsimp only
    cases config.isExplicitlyDisallowed p.path <;> cases config.matchesAllowedOrRegex p.path <;> rfl

theorem pushPathFlagValue_denied {name val : Str} {config : ParameterConfig} (ht : config.paramType = .path) :
    (errorOf (pushPathFlagValue cmd.flags name val config [])).isSome =
      (configCheck cmd config (.flag name) val).isSome := by
  unfold pushPathFlagValue
  rw [errorOf_bind (fun _ => rfl)]
  exact validatePathValue_denied ht

/-- A declared flag with a value fails as its value does. -/
theorem flagError_value {name value : Str} {config : ParameterConfig}
    (hg : cmd.tool.parameters.get name = some config) (ht : config.paramType ≠ .bool) :
    flagError cmd name value = if config.paramType = .path
      then errorOf (pushPathFlagValue cmd.flags name value config [])
      else errorOf (pushStringFlagValue cmd.flags name value config []) := by
  have hparams : cmd.flags.parameters = cmd.tool.parameters := rfl
  unfold flagError flagWithValue
  dsimp only [splitFlag]
  rw [hparams, hg]
  cases hty : config.paramType with
  | bool => exact absurd hty ht
  | string =>
    simp only [hty]
    exact errorOf_bind (x := pushStringFlagValue cmd.flags name value config []) fun _ => rfl
  | path =>
    simp only [hty]
    exact errorOf_bind (x := pushPathFlagValue cmd.flags name value config []) fun _ => rfl

theorem flagError_bool {name value : Str} {config : ParameterConfig}
    (hg : cmd.tool.parameters.get name = some config) (ht : config.paramType = .bool) :
    flagError cmd name value = some (.system ("Flag '" ++ name ++ "' does not take an argument")) := by
  have hparams : cmd.flags.parameters = cmd.tool.parameters := rfl
  unfold flagError flagWithValue
  dsimp only [splitFlag]
  rw [hparams, hg]
  simp [ht]

theorem flagError_undeclared {name value : Str} (hg : cmd.tool.parameters.get name = none) :
    flagError cmd name value = none := by
  unfold flagError
  rw [flagWithValue_undeclared (by exact hg)]
  rfl

theorem flagError_denied {name value : Str} :
    (flagError cmd name value).isSome = (flagCheck cmd name value).isSome := by
  unfold flagCheck
  cases hg : cmd.tool.parameters.get name with
  | none =>
    rw [flagError_undeclared hg]
    rfl
  | some config =>
    dsimp only
    by_cases ht : config.paramType = .bool
    · rw [flagError_bool hg ht, if_pos ht]
      rfl
    · rw [flagError_value hg ht, if_neg ht]
      by_cases hp : config.paramType = .path
      · rw [if_pos hp, pushPathFlagValue_denied hp]
      · rw [if_neg hp, pushStringFlagValue_denied hp]

theorem pushPlain_denied {context : ValidationContext} {raw : Str} :
    (errorOf (pushPositional.pushPlain (cmd.positionals context) raw [])).isSome =
      (positionalCheck.plainCheck raw).isSome := by
  unfold pushPositional.pushPlain positionalCheck.plainCheck
  split <;> rfl

theorem positionalError_denied {context : ValidationContext} {raw : Str} :
    (positionalError cmd context raw).isSome = (positionalCheck cmd context raw).isSome := by
  have hconfig : (cmd.positionals context).config = cmd.tool.positional := rfl
  have hsafe : (cmd.positionals context).safeRe = cmd.safeRe := rfl
  unfold positionalError pushPositional positionalCheck
  extract_lets displayArg
  rw [hsafe, hconfig]
  split
  · rfl
  · cases cmd.tool.positional with
    | none => exact pushPlain_denied
    | some config =>
      dsimp only
      by_cases ht : config.paramType = .path
      · rw [if_pos ht, errorOf_bind (fun _ => rfl)]
        refine (validatePathValue_denied ht).trans ?_
        show (configCheck cmd config context raw).isSome = _
        cases configCheck cmd config context raw <;> simp [ht]
      · rw [if_neg ht]
        unfold configCheck
        rw [if_neg ht, if_neg ht]
        cases config.isExplicitlyDisallowed raw <;> cases config.matchesAllowedOrRegex raw
        · rfl
        · exact pushPlain_denied
        · rfl
        · rfl

/-- **An item is denied by a check where the code fails at it.** -/
theorem itemError_denied {item : Item} : (itemError cmd item).isSome = (itemCheck cmd item).isSome := by
  cases item with
  | flag | cluster | delimiter => rfl
  | equals | separate | clusterSeparate | attached | trailingEq => exact flagError_denied
  | positional => exact positionalError_denied

/-! ## The error of a sensitive value -/

theorem pushStringFlagValue_sensitive {name v₁ v₂ : Str} {config : ParameterConfig} (hs : config.sensitive = true)
    (ht : config.paramType ≠ .path)
    (h : configCheck cmd config (.flag name) v₁ = configCheck cmd config (.flag name) v₂) :
    errorOf (pushStringFlagValue cmd.flags name v₁ config []) =
      errorOf (pushStringFlagValue cmd.flags name v₂ config []) := by
  unfold configCheck at h
  rw [if_neg ht, if_neg ht] at h
  unfold pushStringFlagValue
  simp only [hs, if_true]
  cases hd₁ : config.isExplicitlyDisallowed v₁ <;> cases hd₂ : config.isExplicitlyDisallowed v₂ <;>
    cases hm₁ : config.matchesAllowedOrRegex v₁ <;> cases hm₂ : config.matchesAllowedOrRegex v₂ <;>
    simp_all

/-- The error of a sensitive path: neither its text nor its canonical path is in it. -/
def sensitivePathError (disallowedMsg policyMsg : Str → Bool → Str) : Check → Error
  | .path => .validation "Access to a sensitive path was denied"
  | .pathDisallowed => .validation (disallowedMsg [] true)
  | _ => .config (policyMsg [] true)

theorem validatePathValue_sensitive {context : ValidationContext} {raw : Str} {config : ParameterConfig}
    {m₁ m₂ : Str → Bool → Str} (hs : config.sensitive = true) (ht : config.paramType = .path)
    (hm₁ : ∀ p, m₁ p true = m₁ [] true) (hm₂ : ∀ p, m₂ p true = m₂ [] true) :
    errorOf (validatePathValue cmd.check raw config context cmd.blockedPaths m₁ m₂) =
      (configCheck cmd config context raw).map (sensitivePathError m₁ m₂) := by
  unfold validatePathValue configCheck
  rw [if_pos ht]
  simp only [hs, if_true]
  cases cmd.check raw context cmd.blockedPaths with
  | error e => rfl
  | ok p =>
    dsimp only
    rw [hm₁ p.path, hm₂ p.path]
    cases config.isExplicitlyDisallowed p.path <;> cases config.matchesAllowedOrRegex p.path <;> rfl

/-- **The error of a sensitive flag value is the check's.** -/
theorem flagError_sensitive {name v₁ v₂ : Str} (hs : isSensitive cmd.tool.parameters name = true)
    (h : flagCheck cmd name v₁ = flagCheck cmd name v₂) : flagError cmd name v₁ = flagError cmd name v₂ := by
  unfold isSensitive at hs
  unfold flagCheck at h
  cases hg : cmd.tool.parameters.get name with
  | none => simp [hg] at hs
  | some config =>
    have hsens : config.sensitive = true := by simpa [hg] using hs
    rw [hg] at h
    dsimp only at h
    by_cases ht : config.paramType = .bool
    · rw [flagError_bool hg ht, flagError_bool hg ht]
    · rw [if_neg ht, if_neg ht] at h
      rw [flagError_value hg ht, flagError_value hg ht]
      by_cases hp : config.paramType = .path
      · rw [if_pos hp, if_pos hp]
        unfold pushPathFlagValue
        rw [errorOf_bind (fun _ => rfl), errorOf_bind (fun _ => rfl)]
        refine (validatePathValue_sensitive hsens hp (fun _ => rfl) fun _ => rfl).trans ?_
        refine Eq.trans ?_ (validatePathValue_sensitive hsens hp (fun _ => rfl) fun _ => rfl).symm
        exact congrArg _ h
      · rw [if_neg hp, if_neg hp]
        exact pushStringFlagValue_sensitive hsens hp h

/-- The error of a sensitive positional: the last check alone shows its text. -/
def sensitivePositionalError (cmd : CommandParams D) (context : ValidationContext) (raw : Str) : Check → Error
  | .illegalCharacters => .system ("Positional argument '" ++ redactedValue ++ "' contains illegal characters")
  | .disallowed => .validation ("Positional argument '" ++ redactedValue ++ "' is explicitly disallowed for tool '" ++
      cmd.toolName ++ "'")
  | .notPermitted => .validation ("Positional argument '" ++ redactedValue ++ "' is not permitted by policy")
  | .flagLike => .security ("Security failure: illegal flag-like positional argument '" ++ raw ++ "' in '" ++
      context.display ++ "' context")
  | check => sensitivePathError (disallowedPathMsg "Positional argument" redactedValue cmd.toolName)
      (policyPathMsg "Positional argument") check

theorem pushPlain_check {context : ValidationContext} {raw : Str} :
    errorOf (pushPositional.pushPlain (cmd.positionals context) raw []) =
      (positionalCheck.plainCheck raw).map (sensitivePositionalError cmd context raw) := by
  unfold pushPositional.pushPlain positionalCheck.plainCheck
  split <;> rfl

/-- The check of a path is one of the three for paths. -/
theorem configCheck_path {config : ParameterConfig} {context : ValidationContext} {raw : Str}
    (ht : config.paramType = .path) :
    (configCheck cmd config context raw).map (sensitivePathError
        (disallowedPathMsg "Positional argument" redactedValue cmd.toolName) (policyPathMsg "Positional argument")) =
      (configCheck cmd config context raw).map (sensitivePositionalError cmd context raw) := by
  unfold configCheck
  rw [if_pos ht]
  cases cmd.check raw context cmd.blockedPaths with
  | error e => rfl
  | ok p =>
    dsimp only
    cases config.isExplicitlyDisallowed p.path <;> cases config.matchesAllowedOrRegex p.path <;> rfl

/-- **The error of a sensitive positional is the check's**, and the last check's shows the text. -/
theorem positionalError_sensitive {context : ValidationContext} {raw : Str}
    (hs : sensitivePositionals cmd.tool = true) :
    positionalError cmd context raw =
      (positionalCheck cmd context raw).map (sensitivePositionalError cmd context raw) := by
  have hconfig : (cmd.positionals context).config = cmd.tool.positional := rfl
  have hsafe : (cmd.positionals context).safeRe = cmd.safeRe := rfl
  unfold sensitivePositionals at hs
  unfold positionalError pushPositional positionalCheck
  simp only [hsafe, hconfig, hs, if_true]
  cases hpos : cmd.tool.positional with
  | none => simp [hpos] at hs
  | some config =>
    have hsens : config.sensitive = true := by simpa [hpos] using hs
    cases cmd.safeRe.isMatch raw with
    | false => rfl
    | true =>
      rw [if_neg (by decide), if_neg (by decide)]
      dsimp only
      by_cases ht : config.paramType = .path
      · rw [if_pos ht, errorOf_bind (fun _ => rfl)]
        refine (validatePathValue_sensitive hsens ht (fun _ => rfl) fun _ => rfl).trans ?_
        refine (configCheck_path ht).trans ?_
        show Option.map _ (configCheck cmd config context raw) = _
        cases configCheck cmd config context raw with
        | none => simp [ht]
        | some check => rfl
      · rw [if_neg ht]
        unfold configCheck
        rw [if_neg ht, if_neg ht]
        cases config.isExplicitlyDisallowed raw <;> cases config.matchesAllowedOrRegex raw
        · rfl
        · exact pushPlain_check
        · rfl
        · rfl

/-- What is denied shows no sensitive value, but for a flag-like positional. -/
theorem itemError_alike {tool : ToolPolicy} (htool : cmd.tool = tool) {i₁ i₂ : Item} (halike : Alike tool i₁ i₂)
    (h : itemCheck cmd i₁ = itemCheck cmd i₂) (hne : itemCheck cmd i₁ = some .flagLike → i₁ = i₂) :
    itemError cmd i₁ = itemError cmd i₂ := by
  subst htool
  cases halike with
  | same => rfl
  | equals hs | separate hs | clusterSeparate hs | attached hs => exact flagError_sensitive hs h
  | @positional context r₁ r₂ hs =>
    by_cases hlast : itemCheck cmd (.positional context r₁) = some .flagLike
    · rw [hne hlast]
    · show positionalError cmd context r₁ = positionalError cmd context r₂
      replace h : positionalCheck cmd context r₁ = positionalCheck cmd context r₂ := h
      replace hlast : positionalCheck cmd context r₁ ≠ some .flagLike := hlast
      rw [positionalError_sensitive hs, positionalError_sensitive hs, ← h]
      cases hc : positionalCheck cmd context r₁ with
      | none => rfl
      | some check =>
        cases check <;> first | rfl | exact absurd hc hlast

/-- A flag-like positional is shown. -/
theorem itemError_flagLike {tool : ToolPolicy} (htool : cmd.tool = tool) {i₁ i₂ : Item} (halike : Alike tool i₁ i₂)
    (h₁ : itemCheck cmd i₁ = some .flagLike) (h₂ : itemCheck cmd i₂ = some .flagLike)
    (h : (itemError cmd i₁).map Error.display = (itemError cmd i₂).map Error.display) : i₁ = i₂ := by
  subst htool
  have hflag : ∀ {name value : Str}, flagCheck cmd name value ≠ some .flagLike := by
    intro name value
    unfold flagCheck configCheck
    repeat' split
    all_goals simp
  cases halike with
  | same => rfl
  | equals | separate | clusterSeparate | attached => exact absurd h₁ hflag
  | @positional context r₁ r₂ hs =>
    replace h₁ : positionalCheck cmd context r₁ = some .flagLike := h₁
    replace h₂ : positionalCheck cmd context r₂ = some .flagLike := h₂
    replace h : (positionalError cmd context r₁).map Error.display =
      (positionalError cmd context r₂).map Error.display := h
    rw [positionalError_sensitive hs, positionalError_sensitive hs, h₁, h₂] at h
    have htext := Option.some.inj h
    unfold sensitivePositionalError Error.display at htext
    rw [List.append_left_inj, List.append_left_inj, List.append_left_inj, List.append_right_inj] at htext
    rw [htext]

/-! ## The error of an argument -/

theorem readCluster_error {item : Item} : ∀ {chars seen : List Char} {out : List (ValidatedArg D)},
    readCluster cmd.tool.parameters seen chars iter = some (item, iter') →
      errorOf (clusterFlags cmd.flags chars iter out) = itemError cmd item
  | [], seen, out, h => by
    cases h
    rfl
  | c :: chars, seen, out, h => by
    have hparams : cmd.flags.parameters = cmd.tool.parameters := rfl
    unfold readCluster at h
    unfold clusterFlags
    dsimp only
    rw [hparams]
    cases hg : cmd.tool.parameters.get ['-', c] with
    | none => simp [hg] at h
    | some config =>
      simp only [hg] at h ⊢
      by_cases ht : config.paramType = .bool
      · rw [if_pos ht] at h
        rw [if_neg (not_not_intro ht)]
        exact readCluster_error h
      · have hbool : ∀ {provided : Option Str} config', cmd.tool.parameters.get ['-', c] = some config' →
            config'.paramType = .bool → provided.isSome = true := by
          intro provided config' hg' ht'
          cases hg.symm.trans hg'
          exact absurd ht' ht
        rw [if_neg ht] at h
        rw [if_pos ht, errorOf_bind (fun _ => rfl)]
        by_cases hchars : chars = []
        · subst hchars
          rw [if_neg (not_not_intro rfl)] at h
          rw [if_pos rfl]
          by_cases hc : c = '='
          · rw [if_pos hc] at h
            cases h
            subst hc
            exact @flagWithValue_error _ _ _ _ _ _ _ _ _ (some []) (by decide) rfl fun _ _ _ => rfl
          · rw [if_neg hc] at h
            cases iter with
            | nil => cases h
            | cons value rest =>
              cases h
              exact flagWithValue_error (splitFlag_short hc) rfl hbool
        · rw [if_pos hchars] at h
          cases h
          rw [if_neg hchars]
          exact @flagWithValue_error _ _ _ _ _ _ _ _ _ (some chars) rfl rfl hbool

theorem flagWithValue_readFlag {arg : Str} {item : Item} {config : ParameterConfig}
    (hg : cmd.tool.parameters.get (splitFlag arg none).1 = some config)
    (h : readFlag cmd.tool.parameters arg iter = some (item, iter')) :
    errorOf (flagWithValue cmd.flags arg none iter out) = itemError cmd item := by
  have hparams : cmd.flags.parameters = cmd.tool.parameters := rfl
  unfold readFlag at h
  obtain ⟨⟨name, provided⟩, hsplit⟩ : ∃ x, splitFlag arg none = x := ⟨_, rfl⟩
  rw [hsplit] at h hg
  dsimp only at h hg
  rw [hg] at h
  dsimp only at h
  split at h
  · next hbool =>
    cases h
    unfold flagWithValue
    rw [hsplit]
    dsimp only
    rw [hparams, hg]
    simp [hbool, itemError]
  · cases h
  · cases h
    exact flagWithValue_error hsplit rfl fun _ _ _ => rfl
  · next ht =>
    cases h
    refine flagWithValue_error hsplit rfl fun config' hg' ht' => ?_
    cases hg.symm.trans hg'
    exact absurd ht' ht
  · cases h

/-- A declared flag is not looked at a second time. -/
theorem processLongFlag_declared {arg : Str} {config : ParameterConfig}
    (hg : cmd.tool.parameters.get (splitFlag arg none).1 = some config) :
    errorOf (processLongFlag cmd.flags arg iter out) = errorOf (flagWithValue cmd.flags arg none iter out) := by
  unfold processLongFlag
  cases hf : flagWithValue cmd.flags arg none iter out with
  | error e => rfl
  | ok done =>
    cases done with
    | none => cases hg.symm.trans (flagWithValue_none hf)
    | some done => rfl

theorem processShortFlag_declared {arg : Str} {config : ParameterConfig}
    (hg : cmd.tool.parameters.get (splitFlag arg none).1 = some config) :
    errorOf (processShortFlag cmd.flags arg iter out) = errorOf (flagWithValue cmd.flags arg none iter out) := by
  unfold processShortFlag
  cases hf : flagWithValue cmd.flags arg none iter out with
  | error e => rfl
  | ok done =>
    cases done with
    | none => cases hg.symm.trans (flagWithValue_none hf)
    | some done => rfl

theorem processShortFlag_undeclared {arg : Str} (hg : cmd.tool.parameters.get (splitFlag arg none).1 = none) :
    processShortFlag cmd.flags arg iter out = clusterFlags cmd.flags (arg.drop 1) iter out := by
  unfold processShortFlag
  rw [flagWithValue_undeclared hg]
  rfl

theorem readFlag_unknown {arg : Str} (hg : cmd.tool.parameters.get (splitFlag arg none).1 = none) :
    readFlag cmd.tool.parameters arg iter =
      if Str.startsWith arg "--" then none else readCluster cmd.tool.parameters [] (arg.drop 1) iter :=
  @readFlag_undeclared _ _ _ [] _ (flagWithValue_undeclared hg)

theorem dash_of_long {arg : Str} (hne : arg ≠ ['-', '-']) (hlong : Str.startsWith arg "--" = true) :
    (Str.startsWith arg "-" && 1 < Str.len arg) = true := by
  obtain ⟨t, rfl⟩ := List.isPrefixOf_iff_prefix.mp hlong
  refine dash_longer.mpr ⟨startsWith_dash.mpr ⟨_, rfl⟩, ?_⟩
  simp

/-- The reason of a flag's error. -/
theorem parseArg_flag {arg : Str} {item : Item} (hne : arg ≠ ['-', '-'])
    (hdash : (Str.startsWith arg "-" && 1 < Str.len arg) = true)
    (h : readFlag cmd.tool.parameters arg iter = some (item, iter')) :
    errorOf (parseArg cmd arg iter out) = (itemError cmd item).map (cmd.denied .unknownFlag) := by
  unfold parseArg
  rw [if_neg hne]
  by_cases hlong : Str.startsWith arg "--" = true
  · rw [if_pos hlong, errorOf_mapError]
    cases hg : cmd.tool.parameters.get (splitFlag arg none).1 with
    | none =>
      rw [readFlag_unknown hg, if_pos hlong] at h
      cases h
    | some config => rw [processLongFlag_declared hg, flagWithValue_readFlag hg h]
  · rw [if_neg hlong, if_pos hdash, errorOf_mapError]
    cases hg : cmd.tool.parameters.get (splitFlag arg none).1 with
    | none =>
      rw [readFlag_unknown hg, if_neg hlong] at h
      rw [processShortFlag_undeclared hg, readCluster_error h]
    | some config => rw [processShortFlag_declared hg, flagWithValue_readFlag hg h]

theorem pushPositionals_error {context : ValidationContext} : ∀ {args : List Str} {out : List (ValidatedArg D)},
    errorOf (pushPositionals (cmd.positionals context) args out) =
      (args.map (Item.positional context)).findSome? (itemError cmd)
  | [], out => rfl
  | raw :: rest, out => by
    have hraw : itemError cmd (.positional context raw) = errorOf (pushPositional (cmd.positionals context) raw out) :=
      pushPositional_error.symm
    unfold pushPositionals
    rw [List.map_cons, List.findSome?_cons, hraw]
    cases pushPositional (cmd.positionals context) raw out with
    | error e => rfl
    | ok out => exact pushPositionals_error

/-- **The reason an argument is denied with is the error of the first item at which the code fails.** -/
theorem parseArg_reason {arg : Str} {items : List Item}
    (h : readArg cmd.tool.parameters arg iter = some (items, iter')) :
    (errorOf (parseArg cmd arg iter out)).map (·.reason) = (items.findSome? (itemError cmd)).map Error.display := by
  unfold readArg at h
  by_cases hne : arg = ['-', '-']
  · rw [if_pos hne] at h
    cases h
    unfold parseArg
    rw [if_pos hne, errorOf_mapError, errorOf_map, pushPositionals_error, Option.map_map]
    rfl
  · rw [if_neg hne] at h
    by_cases hdash : (Str.startsWith arg "-" && 1 < Str.len arg) = true
    · rw [if_pos hdash] at h
      obtain ⟨⟨item, rest⟩, hread, heq⟩ := Option.map_eq_some_iff.mp h
      cases heq
      rw [parseArg_flag hne hdash hread, Option.map_map]
      cases hitem : itemError cmd item <;> simp [hitem, CommandParams.denied]
    · rw [if_neg hdash] at h
      cases h
      have hlong : ¬Str.startsWith arg "--" = true := fun hlong => hdash (dash_of_long hne hlong)
      unfold parseArg
      rw [if_neg hne, if_neg hlong, if_neg hdash, errorOf_mapError, errorOf_map, pushPositional_error, Option.map_map]
      have hitem : itemError cmd (.positional .positional arg) = positionalError cmd .positional arg := rfl
      rw [List.findSome?_singleton, hitem]
      rfl

/-- A flag without the value it takes fails at its name. -/
theorem flagWithValue_missing {flag name : Str} {config : ParameterConfig} (hsplit : splitFlag flag none = (name, none))
    (hg : cmd.tool.parameters.get name = some config) (ht : config.paramType ≠ .bool) :
    errorOf (flagWithValue cmd.flags flag none [] out) = errorOf (flagWithValue cmd.flags flag none [] out₀) := by
  have hparams : cmd.flags.parameters = cmd.tool.parameters := rfl
  unfold flagWithValue
  rw [hsplit]
  dsimp only
  rw [hparams, hg]
  cases hty : config.paramType with
  | bool => exact absurd hty ht
  | string | path =>
    simp only [hty]
    rfl

/-- A Bool with a value fails at its name. -/
theorem flagWithValue_noArgument {flag name value : Str} {config : ParameterConfig}
    (hsplit : splitFlag flag none = (name, some value)) (hg : cmd.tool.parameters.get name = some config)
    (ht : config.paramType = .bool) :
    flagWithValue cmd.flags flag none iter out =
      .error (.system ("Flag '" ++ name ++ "' does not take an argument")) := by
  have hparams : cmd.flags.parameters = cmd.tool.parameters := rfl
  unfold flagWithValue
  rw [hsplit]
  dsimp only
  rw [hparams, hg]
  simp only [ht]
  rfl

/-- A cluster that begins no item fails at its text alone. -/
theorem readCluster_none : ∀ {chars seen : List Char} {out out₀ : List (ValidatedArg D)},
    readCluster cmd.tool.parameters seen chars iter = none →
      errorOf (clusterFlags cmd.flags chars iter out) = errorOf (clusterFlags cmd.flags chars [] out₀)
  | [], seen, out, out₀, h => by cases h
  | c :: chars, seen, out, out₀, h => by
    have hparams : cmd.flags.parameters = cmd.tool.parameters := rfl
    unfold readCluster at h
    unfold clusterFlags
    dsimp only
    rw [hparams]
    cases hg : cmd.tool.parameters.get ['-', c] with
    | none => rfl
    | some config =>
      simp only [hg] at h ⊢
      by_cases ht : config.paramType = .bool
      · rw [if_pos ht] at h
        rw [if_neg (not_not_intro ht), if_neg (not_not_intro ht)]
        exact readCluster_none h
      · rw [if_neg ht] at h
        rw [if_pos ht, if_pos ht]
        by_cases hchars : chars = []
        · subst hchars
          rw [if_neg (not_not_intro rfl)] at h
          by_cases hc : c = '='
          · rw [if_pos hc] at h
            cases h
          · rw [if_neg hc] at h
            cases iter with
            | cons value rest => cases h
            | nil =>
              rw [errorOf_bind (fun _ => rfl), errorOf_bind (fun _ => rfl), if_pos rfl]
              exact flagWithValue_missing (splitFlag_short hc) hg ht
        · rw [if_pos hchars] at h
          cases h

/-- A flag that begins no item fails at its text alone. -/
theorem flagWithValue_unread {arg : Str} {config : ParameterConfig}
    (hg : cmd.tool.parameters.get (splitFlag arg none).1 = some config)
    (h : readFlag cmd.tool.parameters arg iter = none) :
    errorOf (flagWithValue cmd.flags arg none iter out) = errorOf (flagWithValue cmd.flags arg none [] out₀) := by
  unfold readFlag at h
  obtain ⟨⟨name, provided⟩, hsplit⟩ : ∃ x, splitFlag arg none = x := ⟨_, rfl⟩
  rw [hsplit] at h hg
  dsimp only at h hg
  rw [hg] at h
  dsimp only at h
  split at h
  · cases h
  · next ht =>
    rw [flagWithValue_noArgument hsplit hg ht, flagWithValue_noArgument hsplit hg ht]
  · cases h
  · cases h
  · next ht => exact flagWithValue_missing hsplit hg ht

/-- **What begins no item is denied for its own text**, whatever has been read before it. -/
theorem parseArg_unread {arg : Str} (h : readArg cmd.tool.parameters arg iter = none) :
    errorOf (parseArg cmd arg iter out) = errorOf (parseArg cmd arg [] []) ∧
      (errorOf (parseArg cmd arg iter out)).isSome = true := by
  constructor
  · unfold readArg at h
    by_cases hne : arg = ['-', '-']
    · rw [if_pos hne] at h
      cases h
    · rw [if_neg hne] at h
      by_cases hdash : (Str.startsWith arg "-" && 1 < Str.len arg) = true
      · rw [if_pos hdash, Option.map_eq_none_iff] at h
        unfold parseArg
        rw [if_neg hne, if_neg hne]
        cases hg : cmd.tool.parameters.get (splitFlag arg none).1 with
        | some config =>
          by_cases hlong : Str.startsWith arg "--" = true
          · rw [if_pos hlong, if_pos hlong, errorOf_mapError, errorOf_mapError, processLongFlag_declared hg,
              processLongFlag_declared hg, flagWithValue_unread hg h]
          · rw [if_neg hlong, if_neg hlong, if_pos hdash, if_pos hdash, errorOf_mapError, errorOf_mapError,
              processShortFlag_declared hg, processShortFlag_declared hg, flagWithValue_unread hg h]
        | none =>
          rw [readFlag_unknown hg] at h
          by_cases hlong : Str.startsWith arg "--" = true
          · rw [if_pos hlong, if_pos hlong]
            unfold processLongFlag
            rw [flagWithValue_undeclared hg, flagWithValue_undeclared hg]
          · rw [if_neg hlong] at h
            rw [if_neg hlong, if_neg hlong, if_pos hdash, if_pos hdash, errorOf_mapError, errorOf_mapError,
              processShortFlag_undeclared hg, processShortFlag_undeclared hg, readCluster_none h]
      · rw [if_neg hdash] at h
        cases h
  · cases hp : parseArg cmd arg iter out with
    | error d => rfl
    | ok r =>
      obtain ⟨items, _, hread, -⟩ := parseArg_reads hp
      cases h.symm.trans hread

/-- A Bool that is given a value is denied without showing the value. -/
theorem parseArg_noArgument {name value : Str} {config : ParameterConfig} (hname : '=' ∉ name)
    (hg : cmd.tool.parameters.get name = some config) (ht : config.paramType = .bool)
    (h : readArg cmd.tool.parameters (name ++ '=' :: value) iter = none) :
    errorOf (parseArg cmd (name ++ '=' :: value) [] []) =
      some (cmd.denied .unknownFlag (.system ("Flag '" ++ name ++ "' does not take an argument"))) := by
  have hsplit : splitFlag (name ++ '=' :: value) none = (name, some value) := by
    unfold splitFlag
    rw [splitOnce_mid hname]
  have hg' : cmd.tool.parameters.get (splitFlag (name ++ '=' :: value) none).1 = some config := by rw [hsplit, hg]
  unfold readArg at h
  by_cases hne : name ++ '=' :: value = ['-', '-']
  · rw [if_pos hne] at h
    cases h
  · rw [if_neg hne] at h
    by_cases hdash : (Str.startsWith (name ++ '=' :: value) "-" && 1 < Str.len (name ++ '=' :: value)) = true
    · unfold parseArg
      rw [if_neg hne]
      by_cases hlong : Str.startsWith (name ++ '=' :: value) "--" = true
      · rw [if_pos hlong, errorOf_mapError, processLongFlag_declared hg', flagWithValue_noArgument hsplit hg ht]
        rfl
      · rw [if_neg hlong, if_pos hdash, errorOf_mapError, processShortFlag_declared hg',
          flagWithValue_noArgument hsplit hg ht]
        rfl
    · rw [if_neg hdash] at h
      cases h

/-! ## The loop -/

/-- The check of a denial is the one its item or token fails. -/
def Stands (cmd : CommandParams D) (denied : Denied) : Prop :=
  match denied.site with
  | .command | .verb _ => False
  | .item item => itemCheck cmd item = some denied.check
  | .token arg => (∃ iter, readArg cmd.tool.parameters arg iter = none) ∧
      denied.check = tokenCheck cmd.tool.parameters arg

theorem Stands.reason {denied : Denied} (h : Stands cmd denied) : (siteReason cmd denied.site).isSome = true := by
  obtain ⟨verb, items, site, check⟩ := denied
  cases site with
  | command | verb => exact h.elim
  | item item =>
    replace h : itemCheck cmd item = some check := h
    simp [siteReason, itemError_denied, h]
  | token arg =>
    obtain ⟨⟨iter, hread⟩, -⟩ := h
    obtain ⟨hsame, hsome⟩ := @parseArg_unread _ _ _ [] _ hread
    rw [hsame] at hsome
    simpa [siteReason] using hsome

theorem deniedItem_spec {verb : List Str} : ∀ {items before : List Item},
    (items.findSome? (itemError cmd)).map Error.display =
        (deniedItem cmd verb before items).bind (fun n => siteReason cmd n.site) ∧
      ∀ n, deniedItem cmd verb before items = some n → Stands cmd n
  | [], before => ⟨rfl, fun n h => by cases h⟩
  | item :: items, before => by
    have hdenied := @itemError_denied _ cmd item
    unfold deniedItem
    rw [List.findSome?_cons]
    cases hc : itemCheck cmd item with
    | none =>
      cases he : itemError cmd item with
      | some e => simp [hc, he] at hdenied
      | none => exact deniedItem_spec
    | some check =>
      cases he : itemError cmd item with
      | none => simp [hc, he] at hdenied
      | some e =>
        refine ⟨by simp [siteReason, he], fun n h => ?_⟩
        cases h
        exact hc

/-- **The loop fails where a check denies**, for the reason the code gives there. -/
theorem deniedArgsN_spec {verb : List Str} : ∀ {fuel : Nat} {iter : List Str} {before : List Item}
    {out : List (ValidatedArg D)}, iter.length ≤ fuel →
    (errorOf (parseArgsN cmd fuel iter out)).map (·.reason) =
        (deniedArgsN cmd verb fuel before iter).bind (fun n => siteReason cmd n.site) ∧
      ∀ n, deniedArgsN cmd verb fuel before iter = some n → Stands cmd n
  | fuel, [], before, out, _ => by
    unfold parseArgsN deniedArgsN
    exact ⟨rfl, fun n h => by cases h⟩
  | 0, _ :: _, _, _, hf => absurd hf (by simp)
  | fuel + 1, arg :: iter, before, out, hf => by
    rw [List.length_cons] at hf
    unfold parseArgsN deniedArgsN
    cases hread : readArg cmd.tool.parameters arg iter with
    | none =>
      obtain ⟨hsame, hsome⟩ := @parseArg_unread _ _ _ out _ hread
      cases hp : parseArg cmd arg iter out with
      | ok r => simp [hp] at hsome
      | error d =>
        rw [hp] at hsame
        refine ⟨?_, fun n h => ?_⟩
        · simp only [Option.bind_some, siteReason, ← hsame]
          rfl
        · cases h
          exact ⟨⟨iter, hread⟩, rfl⟩
    | some r =>
      obtain ⟨items, rest⟩ := r
      have hreason := @parseArg_reason _ _ _ _ out _ _ hread
      obtain ⟨hitem, hstands⟩ := @deniedItem_spec _ cmd verb items before
      rw [hitem] at hreason
      dsimp only
      cases hd : deniedItem cmd verb before items with
      | some n =>
        rw [hd] at hreason
        cases hp : parseArg cmd arg iter out with
        | ok r =>
          have hsome := (hstands n hd).reason
          rw [Option.bind_some] at hreason
          simp [hp, ← hreason] at hsome
        | error d =>
          rw [hp] at hreason
          refine ⟨hreason, fun n' h => ?_⟩
          cases h
          exact hstands n hd
      | none =>
        rw [hd] at hreason
        cases hp : parseArg cmd arg iter out with
        | error d => simp [hp] at hreason
        | ok r =>
          obtain ⟨iter₁, out₁⟩ := r
          obtain ⟨_, _, hread₁, -, -, hle⟩ := parseArg_reads hp
          cases hread.symm.trans hread₁
          have hrest : rest.length ≤ fuel := by omega
          exact deniedArgsN_spec hrest

theorem deniedArgs_spec {verb : List Str} :
    (errorOf (parseArgs cmd iter out)).map (·.reason) =
        (deniedArgs cmd verb iter).bind (fun n => siteReason cmd n.site) ∧
      ∀ n, deniedArgs cmd verb iter = some n → Stands cmd n :=
  deniedArgsN_spec (Nat.le_refl _)

/-! ## A command's denial -/

variable {check : PathCheck D} {regexNew : Str → Option Regex} {policy : SecureSudoersPolicy} {toolName : Str}
  {tool : ToolPolicy} {args : List Str}

theorem validateCommand_error {binary : SecurePath D} {safeRe : Regex} (ht : policy.tools.get toolName = some tool)
    (hb : check tool.realBinary .positional policy.globalSettings.blockedPaths = .ok binary)
    (hs : regexNew policy.globalSettings.safeArgRegex = some safeRe) :
    errorOf (validateCommand check regexNew policy toolName args) =
      errorOf (takeVerb (commandParams check policy toolName tool safeRe) args >>= fun r =>
        parseArgs (commandParams check policy toolName tool safeRe) r.1 r.2) := by
  unfold validateCommand
  simp only [ht, hb, hs]
  show errorOf (takeVerb (commandParams check policy toolName tool safeRe) args >>= _) = _
  cases takeVerb (commandParams check policy toolName tool safeRe) args with
  | error d => rfl
  | ok r => exact errorOf_bind (x := parseArgs (commandParams check policy toolName tool safeRe) r.1 r.2) fun _ => rfl

/-- What a denial says of its place. -/
def Says (check : PathCheck D) (regexNew : Str → Option Regex) (policy : SecureSudoersPolicy) (toolName : Str)
    (tool : ToolPolicy) (denied : Denied) (reason : Str) : Prop :=
  match denied.site with
  | .command => (errorOf (validateCommand check regexNew policy toolName [])).map (·.reason) = some reason ∧
      denied.check ≠ .flagLike
  | .verb verb => (errorOf (validateCommand check regexNew policy toolName [verb])).map (·.reason) = some reason ∧
      denied.check ≠ .flagLike
  | site => ∃ safeRe, regexNew policy.globalSettings.safeArgRegex = some safeRe ∧
      Stands (commandParams check policy toolName tool safeRe) denied ∧
      siteReason (commandParams check policy toolName tool safeRe) site = some reason

/-- The arguments after the verb are denied as the whole command is. -/
theorem deniedArgs_tells {binary : SecurePath D} {safeRe : Regex} {verb iter : List Str}
    (ht : policy.tools.get toolName = some tool)
    (hb : check tool.realBinary .positional policy.globalSettings.blockedPaths = .ok binary)
    (hs : regexNew policy.globalSettings.safeArgRegex = some safeRe)
    (hv : takeVerb (commandParams check policy toolName tool safeRe) args = .ok (iter, out)) :
    (errorOf (validateCommand check regexNew policy toolName args)).isSome =
        (deniedArgs (commandParams check policy toolName tool safeRe) verb iter).isSome ∧
      ∀ n, deniedArgs (commandParams check policy toolName tool safeRe) verb iter = some n → ∀ d,
        validateCommand check regexNew policy toolName args = .error d →
        Says check regexNew policy toolName tool n d.reason := by
  obtain ⟨hreason, hstands⟩ := @deniedArgs_spec _ (commandParams check policy toolName tool safeRe) iter out verb
  have herr := @validateCommand_error _ _ _ _ _ _ args _ _ ht hb hs
  rw [hv] at herr
  replace herr : errorOf (validateCommand check regexNew policy toolName args) =
    errorOf (parseArgs (commandParams check policy toolName tool safeRe) iter out) := herr
  rw [← herr] at hreason
  constructor
  · rw [← Option.isSome_map (f := fun d : ValidationDenial => d.reason), hreason]
    cases hd : deniedArgs (commandParams check policy toolName tool safeRe) verb iter with
    | none => rfl
    | some n => exact (hstands n hd).reason
  · intro n hd d h
    have hn := hstands n hd
    rw [h, hd] at hreason
    obtain ⟨before, items, site, ch⟩ := n
    cases site with
    | command | verb => exact hn.elim
    | item | token => exact ⟨safeRe, hs, hn, hreason.symm⟩

/-- **Every denial of a declared tool has its place and its check**, and says what the code says there. -/
theorem deniedAt_spec (ht : policy.tools.get toolName = some tool) :
    (errorOf (validateCommand check regexNew policy toolName args)).isSome =
        (deniedAt check regexNew policy toolName tool args).isSome ∧
      ∀ n, deniedAt check regexNew policy toolName tool args = some n → ∀ d,
        validateCommand check regexNew policy toolName args = .error d →
        Says check regexNew policy toolName tool n d.reason := by
  have hcommand : ∀ {args : List Str}, (errorOf (validateCommand check regexNew policy toolName args)) =
      errorOf (validateCommand check regexNew policy toolName []) → ∀ d,
      validateCommand check regexNew policy toolName args = .error d → ∀ ch : Check, ch ≠ .flagLike →
      Says check regexNew policy toolName tool { site := .command, check := ch } d.reason := by
    intro args hargs d hd ch hch
    rw [hd] at hargs
    exact ⟨by rw [← hargs]; rfl, hch⟩
  unfold deniedAt
  cases hb : check tool.realBinary .positional policy.globalSettings.blockedPaths with
  | error e =>
    have herr : ∀ args, ∃ d, validateCommand check regexNew policy toolName args = .error d ∧
        errorOf (validateCommand check regexNew policy toolName []) = some d := by
      intro args
      unfold validateCommand
      simp only [ht, hb]
      exact ⟨_, rfl, rfl⟩
    obtain ⟨d, hd, hnil⟩ := herr args
    refine ⟨by rw [hd]; rfl, fun n hn d' hd' => ?_⟩
    cases hn
    exact hcommand (by rw [hd, hnil]; rfl) d' hd' _ (by decide)
  | ok binary =>
    cases hs : regexNew policy.globalSettings.safeArgRegex with
    | none =>
      have herr : ∀ args, ∃ d, validateCommand check regexNew policy toolName args = .error d ∧
          errorOf (validateCommand check regexNew policy toolName []) = some d := by
        intro args
        unfold validateCommand
        simp only [ht, hb, hs]
        exact ⟨_, rfl, rfl⟩
      obtain ⟨d, hd, hnil⟩ := herr args
      refine ⟨by rw [hd]; rfl, fun n hn d' hd' => ?_⟩
      cases hn
      exact hcommand (by rw [hd, hnil]; rfl) d' hd' _ (by decide)
    | some safeRe =>
      have htool : (commandParams check policy toolName tool safeRe).tool = tool := rfl
      dsimp only
      by_cases hverbs : tool.verbs = []
      · rw [if_pos hverbs]
        exact @deniedArgs_tells _ [] _ _ _ _ _ _ _ _ _ _ ht hb hs (by unfold takeVerb; exact if_pos hverbs)
      · rw [if_neg hverbs]
        cases args with
        | nil =>
          have herr := @validateCommand_error _ _ _ _ _ _ [] _ _ ht hb hs
          rw [takeVerb, htool, if_neg hverbs] at herr
          refine ⟨by rw [herr]; rfl, fun n hn d hd => ?_⟩
          cases hn
          exact hcommand rfl d hd _ (by decide)
        | cons verb rest =>
          by_cases hmem : verb ∈ tool.verbs
          · dsimp only
            rw [if_pos hmem]
            refine @deniedArgs_tells _ [.string verb] _ _ _ _ _ _ _ _ _ _ ht hb hs ?_
            rw [takeVerb, htool, if_neg hverbs]
            exact if_pos hmem
          · dsimp only
            rw [if_neg hmem]
            have herr : ∀ rest, errorOf (validateCommand check regexNew policy toolName (verb :: rest)) =
                some { reason := "Verb '" ++ verb ++ "' is not permitted for tool '" ++ toolName ++ "'",
                       reasonSlug := DenialReason.unknownVerb.slug, ruleId := some (tool.id.getD toolName) } := by
              intro rest
              rw [validateCommand_error ht hb hs, takeVerb, htool, if_neg hverbs]
              simp only [if_neg hmem]
              rfl
            refine ⟨by rw [herr]; rfl, fun n hn d hd => ?_⟩
            cases hn
            have hsame := (herr rest).trans (herr []).symm
            rw [hd] at hsame
            exact ⟨by rw [← hsame]; rfl, by simp⟩

/-- The same place but for a sensitive value. -/
inductive AlikeSite (tool : ToolPolicy) : Site → Site → Prop where
  | same {site : Site} : AlikeSite tool site site
  | item {i₁ i₂ : Item} : Alike tool i₁ i₂ → AlikeSite tool (.item i₁) (.item i₂)
  | token {name v₁ v₂ : Str} {config : ParameterConfig} : '=' ∉ name → tool.parameters.get name = some config →
      config.paramType = .bool → config.sensitive = true →
      AlikeSite tool (.token (name ++ '=' :: v₁)) (.token (name ++ '=' :: v₂))

/-- Up to the token that is denied, the two command lines are read in the same
way and differ in sensitive values alone. -/
structure AlikeDenied (tool : ToolPolicy) (n₁ n₂ : Denied) : Prop where
  verb : n₁.verb = n₂.verb
  items : List.Forall₂ (Alike tool) n₁.items n₂.items
  site : AlikeSite tool n₁.site n₂.site

/-- **Two denials at the same place by the same check say the same** where the
check is not the one for flag-like positionals; there they do where the
positionals are the same. -/
theorem denials_agree_iff {args₁ args₂ : List Str} {d₁ d₂ : ValidationDenial} {n₁ n₂ : Denied}
    (ht : policy.tools.get toolName = some tool)
    (h₁ : validateCommand check regexNew policy toolName args₁ = .error d₁)
    (h₂ : validateCommand check regexNew policy toolName args₂ = .error d₂)
    (hn₁ : deniedAt check regexNew policy toolName tool args₁ = some n₁)
    (hn₂ : deniedAt check regexNew policy toolName tool args₂ = some n₂) (halike : AlikeDenied tool n₁ n₂)
    (hcheck : n₁.check = n₂.check) : d₁.reason = d₂.reason ↔ (n₁.check = .flagLike → n₁.site = n₂.site) := by
  have hsays₁ := (deniedAt_spec ht).2 n₁ hn₁ d₁ h₁
  have hsays₂ := (deniedAt_spec ht).2 n₂ hn₂ d₂ h₂
  obtain ⟨verb₁, items₁, site₁, c⟩ := n₁
  obtain ⟨verb₂, items₂, site₂, c₂⟩ := n₂
  obtain ⟨-, -, hsite⟩ := halike
  cases hcheck
  dsimp only at hsite ⊢
  cases hsite with
  | same =>
    refine iff_of_true ?_ fun _ => rfl
    cases site₁ with
    | command | verb => exact Option.some.inj (hsays₁.1.symm.trans hsays₂.1)
    | item | token =>
      obtain ⟨safeRe, hs, -, hreason₁⟩ := hsays₁
      obtain ⟨safeRe', hs', -, hreason₂⟩ := hsays₂
      cases hs.symm.trans hs'
      exact Option.some.inj (hreason₁.symm.trans hreason₂)
  | @item i₁ i₂ halike =>
    obtain ⟨safeRe, hs, hstands₁, hreason₁⟩ := hsays₁
    obtain ⟨safeRe', hs', hstands₂, hreason₂⟩ := hsays₂
    cases hs.symm.trans hs'
    replace hstands₁ : itemCheck (commandParams check policy toolName tool safeRe) i₁ = some c := hstands₁
    replace hstands₂ : itemCheck (commandParams check policy toolName tool safeRe) i₂ = some c := hstands₂
    rw [← Option.some_inj, ← hreason₁, ← hreason₂]
    constructor
    · intro h hflag
      subst hflag
      rw [itemError_flagLike rfl halike hstands₁ hstands₂ h]
    · intro h
      refine congrArg (Option.map Error.display) ?_
      refine itemError_alike rfl halike (hstands₁.trans hstands₂.symm) fun hlast => ?_
      exact Site.item.inj (h (Option.some.inj (hstands₁.symm.trans hlast)))
  | @token name v₁ v₂ config hname hg hbool hsens =>
    obtain ⟨safeRe, hs, ⟨⟨iter₁, hread₁⟩, hc⟩, hreason₁⟩ := hsays₁
    obtain ⟨safeRe', hs', ⟨⟨iter₂, hread₂⟩, -⟩, hreason₂⟩ := hsays₂
    cases hs.symm.trans hs'
    refine iff_of_true ?_ fun hflag => ?_
    · dsimp only [siteReason] at hreason₁ hreason₂
      rw [parseArg_noArgument hname hg hbool hread₁] at hreason₁
      rw [parseArg_noArgument hname hg hbool hread₂] at hreason₂
      exact Option.some.inj (hreason₁.symm.trans hreason₂)
    · have hsplit : splitFlag (name ++ '=' :: v₁) none = (name, some v₁) := by
        unfold splitFlag
        rw [splitOnce_mid hname]
      replace hc : c = tokenCheck tool.parameters (name ++ '=' :: v₁) := hc
      unfold tokenCheck at hc
      simp [hsplit, hg, hbool, hflag] at hc

/-- A tool whose positionals are secret. -/
def pinTool : ToolPolicy :=
  { realBinary := "/bin/ls"
    positional := some { paramType := .string, sensitive := true, disallowed := some ["0000", "1234"] } }

def pinPolicy : SecureSudoersPolicy := { globalSettings := {}, tools := .single "pin" pinTool }

/-- `pin -- 0000` and `pin -- 1234`. -/
theorem denials_agree_pin : ∃ d₁ d₂,
    validateCommand (checkPath lsTree) defaultRegexNew pinPolicy "pin" ["--", "0000"] = .error d₁ ∧
      validateCommand (checkPath lsTree) defaultRegexNew pinPolicy "pin" ["--", "1234"] = .error d₂ ∧
      d₁.reason = d₂.reason := by
  refine ⟨_, _, rfl, rfl, ?_⟩
  refine (@denials_agree_iff Nat (checkPath lsTree) defaultRegexNew pinPolicy "pin" pinTool ["--", "0000"]
    ["--", "1234"] _ _
    { items := [.delimiter], site := .item (.positional .delimitedPositional "0000"), check := .disallowed }
    { items := [.delimiter], site := .item (.positional .delimitedPositional "1234"), check := .disallowed }
    rfl rfl rfl rfl rfl ⟨rfl, .cons .same .nil, .item (.positional rfl)⟩ rfl).mpr fun h => ?_
  cases h

/-- `pin -- -0000` and `pin -- -1234`: each denial quotes the secret. -/
theorem denials_differ :
    ¬∀ (fs : FileSystem Nat) (regexNew : Str → Option Regex) (policy : SecureSudoersPolicy) (toolName : Str)
      (tool : ToolPolicy) (args₁ args₂ : List Str) (d₁ d₂ : ValidationDenial) (n₁ n₂ : Denied),
      policy.tools.get toolName = some tool →
      validateCommand (checkPath fs) regexNew policy toolName args₁ = .error d₁ →
      validateCommand (checkPath fs) regexNew policy toolName args₂ = .error d₂ →
      deniedAt (checkPath fs) regexNew policy toolName tool args₁ = some n₁ →
      deniedAt (checkPath fs) regexNew policy toolName tool args₂ = some n₂ → AlikeDenied tool n₁ n₂ →
      n₁.check = n₂.check → d₁.reason = d₂.reason := by
  intro h
  have hsame := h lsTree defaultRegexNew pinPolicy "pin" pinTool ["--", "-0000"] ["--", "-1234"] _ _
    { items := [.delimiter], site := .item (.positional .delimitedPositional "-0000"), check := .flagLike }
    { items := [.delimiter], site := .item (.positional .delimitedPositional "-1234"), check := .flagLike }
    rfl rfl rfl rfl rfl ⟨rfl, .cons .same .nil, .item (.positional rfl)⟩ rfl
  exact absurd hsame (by decide)

end SecureSudoers
