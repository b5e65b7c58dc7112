/-
What reaches the tool. An accepted command is the verb, where the tool has
verbs, followed by units: a declared Bool, a declared flag with its checked
value, or a checked positional.

The consequence an administrator relies on is about the tokens alone
(`validateCommand_units`, last part): whatever looks like a flag to the tool is
the verb, a declared parameter, or the value of a declared String.
-/
import SecureSudoers.CheckPath
import SecureSudoers.Reading

namespace SecureSudoers

variable {D : Type} {cmd : CommandParams D}

/-- One unit of an accepted command. -/
inductive CommandUnit (cmd : CommandParams D) : List (ValidatedArg D) → Prop where
  | bool {name : Str} : IsBoolFlag cmd name → CommandUnit cmd [.string name]
  | valued {name value : Str} {u : List (ValidatedArg D)} : Valued cmd name value u → CommandUnit cmd u
  | positional {context : ValidationContext} {raw : Str} {u : List (ValidatedArg D)} :
      Positional cmd context raw u → CommandUnit cmd u

/-- A token the tool could take for a flag. -/
def FlagLike (t : Str) : Prop := t.head? = some '-' ∧ 1 < t.length

/-- Every flag-like token is declared, or follows a declared String. -/
def FlagsDeclared (parameters : HashMap ParameterConfig) (ts : List Str) : Prop :=
  ∀ pre t post, ts = pre ++ t :: post → FlagLike t →
    (∃ config, parameters.get t = some config) ∨
      ∃ pre' name config, pre = pre' ++ [name] ∧ parameters.get name = some config ∧ config.paramType = .string

variable {parameters : HashMap ParameterConfig}

theorem FlagsDeclared.nil : FlagsDeclared parameters [] := by
  intro pre t post h
  cases pre <;> cases h

theorem FlagsDeclared.append {a b : List Str} (ha : FlagsDeclared parameters a) (hb : FlagsDeclared parameters b) :
    FlagsDeclared parameters (a ++ b) := by
  intro pre t post h hf
  obtain ⟨c, rfl, hc⟩ | ⟨c, rfl, hc⟩ := List.append_eq_append_iff.mp h
  · refine (hb c t post hc hf).imp_right fun ⟨pre', name, config, he, hd⟩ => ?_
    exact ⟨a ++ pre', name, config, by rw [he, List.append_assoc], hd⟩
  · cases c with
    | nil =>
      refine (hb [] t post hc.symm hf).imp_right fun ⟨pre', name, config, he, hd⟩ => ?_
      simp at he
    | cons t' c =>
      rw [List.cons_append, List.cons.injEq] at hc
      obtain ⟨rfl, -⟩ := hc
      exact ha pre t c rfl hf

theorem FlagsDeclared.single {t : Str} (h : FlagLike t → ∃ config, parameters.get t = some config) :
    FlagsDeclared parameters [t] := by
  intro pre u post he hf
  cases pre with
  | nil =>
    cases he
    exact .inl (h hf)
  | cons x pre => simp at he

/-- A declared flag and a token that is no flag unless the flag is a String. -/
theorem FlagsDeclared.pair {name t : Str} {config : ParameterConfig} (hn : parameters.get name = some config)
    (h : FlagLike t → config.paramType = .string) : FlagsDeclared parameters [name, t] := by
  intro pre u post he hf
  cases pre with
  | nil =>
    cases he
    exact .inl ⟨config, hn⟩
  | cons x pre =>
    cases pre with
    | nil =>
      cases he
      exact .inr ⟨[], name, config, rfl, hn, h hf⟩
    | cons y pre => simp at he

/-! ## Units -/

/-- `out` is a sequence of units. -/
def InUnits (cmd : CommandParams D) (out : List (ValidatedArg D)) : Prop :=
  ∃ units : List (List (ValidatedArg D)), out = units.flatten ∧ ∀ u ∈ units, CommandUnit cmd u

theorem shortFlags_units {seen : List Char} (h : ∀ c ∈ seen, IsBoolFlag cmd ['-', c]) :
    InUnits cmd (shortFlags seen) := by
  refine ⟨seen.map fun c => [.string ['-', c]], ?_, fun u hu => ?_⟩
  · rw [← List.flatMap_def, shortFlags, List.map_eq_flatMap]
  · obtain ⟨c, hc, rfl⟩ := List.mem_map.mp hu
    exact .bool (h c hc)

/-- A cluster's flags and then the unit of its value. -/
theorem shortFlags_valued {seen : List Char} {name value : Str} {v : List (ValidatedArg D)}
    (h : ∀ c ∈ seen, IsBoolFlag cmd ['-', c]) (hv : Valued cmd name value v) :
    InUnits cmd (shortFlags seen ++ v) := by
  obtain ⟨units, hu, hall⟩ := shortFlags_units h
  refine ⟨units ++ [v], by simp [hu], fun u hm => ?_⟩
  rcases List.mem_append.mp hm with hm | hm
  · exact hall u hm
  · cases List.mem_singleton.mp hm
    exact .valued hv

theorem CommandUnit.inUnits {u : List (ValidatedArg D)} (h : CommandUnit cmd u) : InUnits cmd u :=
  ⟨[u], by simp, fun v hv => List.mem_singleton.mp hv ▸ h⟩

theorem Emits.units {item : Item} {u : List (ValidatedArg D)} (h : Emits cmd item u) : InUnits cmd u := by
  cases h with
  | flag hb => exact (CommandUnit.bool hb).inUnits
  | equals hv | separate hv => exact (CommandUnit.valued hv).inUnits
  | cluster hs => exact shortFlags_units hs
  | clusterSeparate hs hv | attached hs hv => exact shortFlags_valued hs hv
  | trailingEq hs hv =>
    rcases hv with rfl | hv
    · rw [List.append_nil]
      exact shortFlags_units hs
    · exact shortFlags_valued hs hv
  | delimiter => exact ⟨[], rfl, by simp⟩
  | positional hp => exact (CommandUnit.positional hp).inUnits

theorem emits_units {items : List Item} {chunks : List (List (ValidatedArg D))}
    (h : List.Forall₂ (Emits cmd) items chunks) : InUnits cmd chunks.flatten := by
  induction h with
  | nil => exact ⟨[], rfl, by simp⟩
  | cons hu _ ih =>
    obtain ⟨us, hus, h₁⟩ := hu.units
    obtain ⟨units, hunits, h₂⟩ := ih
    refine ⟨us ++ units, by rw [List.flatten_cons, hus, hunits, List.flatten_append], fun v hv => ?_⟩
    exact (List.mem_append.mp hv).elim (h₁ v) (h₂ v)

/-- No path is taken for a flag. -/
theorem not_flagLike_path {fs : FileSystem D} {raw : Str} {context : ValidationContext} {blockedPaths : List Str}
    {p : SecurePath D} (h : checkPath fs raw context blockedPaths = .ok p) : ¬FlagLike p.path := by
  obtain ⟨-, _, _, -, -, -, -, hp, -⟩ := checkPath_accepts.mp h
  have habs : p.path.head? = some '/' := by
    have := @isAbsolute_canonicalPath _ fs p.fd
    rw [hp]
    exact beq_iff_eq.mp this
  intro hf
  rw [FlagLike, habs] at hf
  cases hf.1

theorem CommandUnit.flagsDeclared {fs : FileSystem D} (hcheck : cmd.check = checkPath fs)
    {u : List (ValidatedArg D)} (h : CommandUnit cmd u) :
    FlagsDeclared cmd.tool.parameters (u.map ValidatedArg.asStr) := by
  cases h with
  | bool hb =>
    obtain ⟨config, hg, -⟩ := hb
    exact .single fun _ => ⟨config, hg⟩
  | valued hv =>
    cases hv with
    | string hg ht _ => exact .pair hg fun _ => ht
    | path hg _ hc _ => exact .pair hg fun hf => (not_flagLike_path (hcheck ▸ hc) hf).elim
  | positional hp =>
    cases hp with
    | path _ _ _ hc _ => exact .single fun hf => (not_flagLike_path (hcheck ▸ hc) hf).elim
    | plain _ _ hdash =>
      refine .single fun ⟨hhead, hlen⟩ => ?_
      obtain ⟨cs, hcs⟩ := List.head?_eq_some_iff.mp hhead
      have hraw := hdash (startsWith_dash.mpr ⟨cs, hcs⟩)
      rw [ValidatedArg.asStr, hraw] at hlen
      cases hlen with
      | step h => cases h

theorem units_flagsDeclared {fs : FileSystem D} (hcheck : cmd.check = checkPath fs) :
    ∀ {units : List (List (ValidatedArg D))}, (∀ u ∈ units, CommandUnit cmd u) →
      FlagsDeclared cmd.tool.parameters (units.flatten.map ValidatedArg.asStr)
  | [], _ => .nil
  | u :: units, h => by
    rw [List.flatten_cons, List.map_append]
    exact ((h u List.mem_cons_self).flagsDeclared hcheck).append
      (units_flagsDeclared hcheck fun v hv => h v (List.mem_cons_of_mem _ hv))

/-! ## The command -/

theorem takeVerb_ok {iter iter' : List Str} {out : List (ValidatedArg D)} (h : takeVerb cmd iter = .ok (iter', out)) :
    (cmd.tool.verbs = [] ∧ out = [] ∧ iter' = iter) ∨
      ∃ verb ∈ cmd.tool.verbs, iter = verb :: iter' ∧ out = [.string verb] := by
  unfold takeVerb at h
  split at h
  · next hv =>
    cases h
    exact .inl ⟨hv, rfl, rfl⟩
  · split at h
    · cases h
    · split at h
      · next hm =>
        cases h
        exact .inr ⟨_, hm, rfl, rfl⟩
      · cases h

/-- What the loop of an accepted command reads of the policy. -/
def commandParams (check : PathCheck D) (policy : SecureSudoersPolicy) (toolName : Str) (tool : ToolPolicy)
    (safeRe : Regex) : CommandParams D :=
  { toolName, tool, ruleId := tool.id.getD toolName, safeRe, blockedPaths := policy.globalSettings.blockedPaths,
    check }

/-- The steps of an accepted command. -/
theorem validateCommand_ok {check : PathCheck D} {regexNew : Str → Option Regex} {policy : SecureSudoersPolicy}
    {toolName : Str} {rawArgs : List Str} {res : ValidationResult D}
    (h : validateCommand check regexNew policy toolName rawArgs = .ok res) :
    ∃ tool safeRe iter out, policy.tools.get toolName = some tool ∧
      regexNew policy.globalSettings.safeArgRegex = some safeRe ∧
      check tool.realBinary .positional policy.globalSettings.blockedPaths = .ok res.command.binary ∧
      takeVerb (commandParams check policy toolName tool safeRe) rawArgs = .ok (iter, out) ∧
      parseArgs (commandParams check policy toolName tool safeRe) iter out = .ok res.command.args := by
  unfold validateCommand at h
  split at h
  · cases h
  · next tool ht =>
    extract_lets ruleId blockedPaths at h
    split at h
    · cases h
    · next binary hb =>
      split at h
      · cases h
      · next safeRe hs =>
        obtain ⟨⟨iter, out⟩, hv, h⟩ := bind_ok.mp h
        obtain ⟨args, hp, h⟩ := bind_ok.mp h
        cases h
        exact ⟨tool, safeRe, iter, out, ht, hs, hb, hv, hp⟩

/-- The steps are all there is to a command. -/
theorem validateCommand_of {check : PathCheck D} {regexNew : Str → Option Regex} {policy : SecureSudoersPolicy}
    {toolName : Str} {tool : ToolPolicy} {safeRe : Regex} {rawArgs iter : List Str} {binary : SecurePath D}
    {out args : List (ValidatedArg D)} (ht : policy.tools.get toolName = some tool)
    (hs : regexNew policy.globalSettings.safeArgRegex = some safeRe)
    (hb : check tool.realBinary .positional policy.globalSettings.blockedPaths = .ok binary)
    (hv : takeVerb (commandParams check policy toolName tool safeRe) rawArgs = .ok (iter, out))
    (hp : parseArgs (commandParams check policy toolName tool safeRe) iter out = .ok args) :
    ∃ res, validateCommand check regexNew policy toolName rawArgs = .ok res ∧ res.command.binary = binary ∧
      res.command.args = args := by
  unfold validateCommand
  simp only [ht, hb, hs]
  refine ⟨_, bind_ok.mpr ⟨(iter, out), hv, bind_ok.mpr ⟨args, hp, rfl⟩⟩, rfl, rfl⟩

/-- **An accepted command is its verb and then units**, so that a flag-like
token is the verb, a declared parameter or the value of a declared String. -/
theorem validateCommand_units {fs : FileSystem D} {regexNew : Str → Option Regex} {policy : SecureSudoersPolicy}
    {toolName : Str} {rawArgs : List Str} {res : ValidationResult D}
    (h : validateCommand (checkPath fs) regexNew policy toolName rawArgs = .ok res) :
    ∃ tool safeRe verb, ∃ units : List (List (ValidatedArg D)), policy.tools.get toolName = some tool ∧
      regexNew policy.globalSettings.safeArgRegex = some safeRe ∧
      res.command.args = verb ++ units.flatten ∧
      (tool.verbs = [] → verb = []) ∧ (tool.verbs ≠ [] → ∃ v ∈ tool.verbs, verb = [.string v]) ∧
      (∀ u ∈ units, CommandUnit (commandParams (checkPath fs) policy toolName tool safeRe) u) ∧
      ∀ pre t post, res.command.args.map ValidatedArg.asStr = pre ++ t :: post → FlagLike t →
        (pre = [] ∧ t ∈ tool.verbs) ∨ (∃ config, tool.parameters.get t = some config) ∨
          ∃ pre' name config, pre = pre' ++ [name] ∧ tool.parameters.get name = some config ∧
            config.paramType = .string := by
  obtain ⟨tool, safeRe, iter, verb, ht, hs, -, hv, hp⟩ := validateCommand_ok h
  obtain ⟨items, chunks, -, hem, hout⟩ := parseArgs_reads hp
  obtain ⟨units, hflat, hunits⟩ := emits_units hem
  rw [hflat] at hout
  have hdecl := units_flagsDeclared rfl hunits
  obtain ⟨hnil, rfl, -⟩ | ⟨v, hmem, -, rfl⟩ := takeVerb_ok hv
  · refine ⟨tool, safeRe, [], units, ht, hs, hout, fun _ => rfl, fun hne => absurd hnil hne, hunits, ?_⟩
    intro pre t post he hf
    rw [hout, List.nil_append] at he
    exact .inr (hdecl pre t post he hf)
  · refine ⟨tool, safeRe, [.string v], units, ht, hs, hout, fun he => ?_, fun _ => ⟨v, hmem, rfl⟩, hunits, ?_⟩
    · have hmem' : v ∈ tool.verbs := hmem
      rw [he] at hmem'
      cases hmem'
    · intro pre t post he hf
      rw [hout, List.map_append] at he
      cases pre with
      | nil =>
        cases he
        exact .inl ⟨rfl, hmem⟩
      | cons x pre =>
        obtain ⟨-, he⟩ := List.cons.inj he
        refine .inr ((hdecl pre t post he hf).imp_right fun ⟨pre', name, config, hpre, hd⟩ => ?_)
        exact ⟨x :: pre', name, config, by rw [hpre, List.cons_append], hd⟩

/-! ## A command -/

/-- The directory `/bin` and the file `/bin/ls`. -/
def lsTree : FileSystem Nat :=
  .ofTree [{ parent := 0, name := [], kind := .dir }, { parent := 0, name := Utf8.encode "bin", kind := .dir },
    { parent := 1, name := Utf8.encode "ls", kind := .file, stat := { ino := 7 } }] (by decide)

def lsTool : ToolPolicy :=
  { realBinary := "/bin/ls"
    parameters := ⟨[("-l", { paramType := .bool }), ("-s", { paramType := .string })], by decide⟩ }

def lsPolicy : SecureSudoersPolicy :=
  { globalSettings := {}, tools := .single "ls" lsTool }

/-- `ls -ls -x dir`: the value of `-s` looks like a flag. -/
theorem validateCommand_units_ls :
    ∃ verb, ∃ units : List (List (ValidatedArg Nat)),
      [.string "-l", .string "-s", .string "-x", .string "dir"] = verb ++ units.flatten ∧ verb = [] ∧
        ∀ u ∈ units, CommandUnit (commandParams (checkPath lsTree) lsPolicy "ls" lsTool defaultSafeArg) u := by
  have h : validateCommand (checkPath lsTree) defaultRegexNew lsPolicy "ls" ["-ls", "-x", "dir"] =
      .ok { command := { binary := ⟨"/bin/ls", 2⟩,
                         args := [.string "-l", .string "-s", .string "-x", .string "dir"],
                         isolation := {}, envWhitelist := defaultCommonEnvWhitelist },
            ruleId := "ls" } := by rfl
  obtain ⟨tool, safeRe, verb, units, ht, hs, hargs, hverb, -, hunits, -⟩ := validateCommand_units h
  cases ht
  cases hs
  exact ⟨verb, units, hargs, hverb rfl, hunits⟩

end SecureSudoers
