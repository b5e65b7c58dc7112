/-
`SecureSudoersPolicy::validate` (`models.rs`): the checks a policy must pass,
and what they put in place of what it says: compiled regular expressions and
canonical paths.
-/
import SecureSudoers.KernelPath

namespace SecureSudoers

variable {D : Type}

/-- The entries of a map, each replaced or the first failure. -/
def traverseEntries {V : Type} (f : Str → V → Except Error V) : List (Str × V) → Except Error (List (Str × V))
  | [] => .ok []
  | (k, v) :: rest => do
    let v ← f k v
    let rest ← traverseEntries f rest
    .ok ((k, v) :: rest)

theorem traverseEntries_keys {V : Type} {f : Str → V → Except Error V} : ∀ {es es' : List (Str × V)},
    traverseEntries f es = .ok es' → es'.map Prod.fst = es.map Prod.fst
  | [], es', h => by
    cases h
    rfl
  | (k, v) :: rest, es', h => by
    obtain ⟨v', -, h⟩ := bind_ok.mp h
    obtain ⟨rest', hrest, h⟩ := bind_ok.mp h
    cases h
    rw [List.map_cons, List.map_cons, traverseEntries_keys hrest]

/-- A loop over a map's values. -/
def HashMap.traverse {V : Type} (m : HashMap V) (f : Str → V → Except Error V) : Except Error (HashMap V) :=
  match h : traverseEntries f m.entries with
  | .error e => .error e
  | .ok es => .ok ⟨es, traverseEntries_keys h ▸ m.nodup⟩

/-- A path that must be canonical: one that does not exist stays as it is. -/
def canonicalized (fs : FileSystem D) (path context : Str) : Except Error Str :=
  match fs.realpath path with
  | .ok p => .ok p
  | .error .ENOENT => .ok path
  | .error e => .error (.ioContext context e)

def canonicalizePathListEntries (fs : FileSystem D) (listName toolName configLabel : Str) :
    List Str → Except Error (List Str)
  | [] => .ok []
  | entry :: rest => do
    if !Path.isAbsolute entry then
      .error (.config (listName ++ " entry '" ++ entry ++ "' for " ++ configLabel ++ " in tool '" ++ toolName ++
        "' must be an absolute path"))
    else do
      let path ← canonicalized fs entry ("Security failure: cannot canonicalize " ++ listName ++ " path '" ++ entry ++
        "' for " ++ configLabel ++ " in tool '" ++ toolName ++ "'")
      let rest ← canonicalizePathListEntries fs listName toolName configLabel rest
      .ok (path :: rest)

/-- The list of a config, where it has one. -/
def canonicalizeList (fs : FileSystem D) (listName toolName configLabel : Str) :
    Option (List Str) → Except Error (Option (List Str))
  | none => .ok none
  | some entries => (canonicalizePathListEntries fs listName toolName configLabel entries).map some

def canonicalizePathListConfigEntries (fs : FileSystem D) (config : ParameterConfig) (toolName configLabel : Str) :
    Except Error ParameterConfig :=
  if config.paramType ≠ .path then .ok config
  else do
    let allowed ← canonicalizeList fs "allowed" toolName configLabel config.allowed
    let disallowed ← canonicalizeList fs "disallowed" toolName configLabel config.disallowed
    .ok { config with allowed, disallowed }

def compileParameterRegex (regexNew : Str → Option Regex) (config : ParameterConfig) (toolName configLabel : Str) :
    Except Error ParameterConfig :=
  match config.regex with
  | none => .ok { config with compiledRegex := none }
  | some regexStr =>
    match regexNew regexStr with
    | some re => .ok { config with compiledRegex := some re }
    | none => .error (.parse ("Invalid regex '" ++ regexStr ++ "' in " ++ configLabel ++ " for tool '" ++ toolName ++ "'"))

/-- A parameter's or the positionals' config. -/
def validateConfig (fs : FileSystem D) (regexNew : Str → Option Regex) (toolName configLabel : Str)
    (config : ParameterConfig) : Except Error ParameterConfig := do
  let config ← compileParameterRegex regexNew config toolName configLabel
  canonicalizePathListConfigEntries fs config toolName configLabel

/-- The blocked paths, in the order they are given. -/
def canonicalizeBlockedPaths (fs : FileSystem D) : List Str → Except Error (List Str)
  | [] => .ok []
  | path :: rest => do
    if !Path.isAbsolute path then .error (.config ("Blocked path must be absolute: " ++ path))
    else do
      let p ← canonicalized fs path ("Security failure: cannot canonicalize blocked path '" ++ path ++ "'")
      let rest ← canonicalizeBlockedPaths fs rest
      .ok (p :: rest)

/-- One tool of the policy. -/
def validateTool (fs : FileSystem D) (regexNew : Str → Option Regex) (name : Str) (tool : ToolPolicy) :
    Except Error ToolPolicy := do
  if !isValidToolName name then .error (.validation ("Invalid tool name in policy: '" ++ name ++ "'"))
  else if !Path.isAbsolute tool.realBinary then
    .error (.config ("real_binary for tool '" ++ name ++ "' must be an absolute path"))
  else do
    let parameters ← tool.parameters.traverse fun flag config =>
      validateConfig fs regexNew name ("parameter '" ++ flag ++ "'") config
    let positional ← match tool.positional with
      | none => .ok none
      | some config => (validateConfig fs regexNew name "positional config" config).map some
    .ok { tool with parameters, positional }

/-- `SecureSudoersPolicy::validate`, with the policy as it leaves it. -/
def SecureSudoersPolicy.validate (fs : FileSystem D) (regexNew : Str → Option Regex) (policy : SecureSudoersPolicy) :
    Except Error SecureSudoersPolicy :=
  if (regexNew policy.globalSettings.safeArgRegex).isNone then .error (.parse "Invalid regex in safe_arg_regex")
  else do
    let blockedPaths ← canonicalizeBlockedPaths fs policy.globalSettings.blockedPaths
    let tools ← policy.tools.traverse (validateTool fs regexNew)
    .ok { policy with globalSettings := { policy.globalSettings with blockedPaths }, tools }

end SecureSudoers
