/-
The spellings of one option: `-b -pv` as one cluster `-bpv`, `--name v` as
`--name=v`. The cluster and the separate tokens go through different code, and
the loop does the same on them, where the tokens stand where an argument is due:
`spellings_alike`.

The exception is a value that starts with `=`: `-p=v` is `-p` with the value `v`,
and in the cluster `-bp=v` the value of `-p` is `=v`.
-/
import SecureSudoers.NormalForm

namespace SecureSudoers

variable {D : Type} {cmd : CommandParams D} {iter : List Str} {out : List (ValidatedArg D)}

/-- `-c` as a token of its own, for each of the letters. -/
def shortTokens (letters : List Char) : List Str := letters.map fun c => ['-', c]

/-- A letter of a short flag. -/
def IsLetter (c : Char) : Prop := c ≠ '-' ∧ c ≠ '='

/-- No name but `-p` is declared that is the token, or the part of it before its first `=`. -/
def NotDeclared (parameters : HashMap ParameterConfig) (p : Char) (token : Str) : Prop :=
  ∀ name, name = token ∨ name = (splitFlag token none).1 → name ≠ ['-', p] → parameters.get name = none

/-- The option's name takes a value. -/
def TakesValue (parameters : HashMap ParameterConfig) (name : Str) : Prop :=
  ∃ config, parameters.get name = some config ∧ config.paramType ≠ .bool

/-! ## Clusters -/

theorem clusterFlags_bools {rest : List Char} : ∀ {letters : List Char} {out : List (ValidatedArg D)},
    (∀ c ∈ letters, IsBoolFlag cmd ['-', c]) →
    clusterFlags cmd.flags (letters ++ rest) iter out = clusterFlags cmd.flags rest iter (out ++ shortFlags letters)
  | [], out, _ => by simp [shortFlags]
  | c :: letters, out, h => by
    have hparams : cmd.flags.parameters = cmd.tool.parameters := rfl
    obtain ⟨config, hg, ht⟩ := h c List.mem_cons_self
    rw [List.cons_append, clusterFlags]
    dsimp only
    rw [hparams, hg]
    dsimp only
    rw [if_neg (not_not_intro ht), clusterFlags_bools fun d hd => h d (List.mem_cons_of_mem _ hd), List.append_assoc]
    rfl

theorem parseArg_bool {c : Char} (hc : IsLetter c) (hb : IsBoolFlag cmd ['-', c]) :
    parseArg cmd ['-', c] iter out = .ok (iter, out ++ [.string ['-', c]]) := by
  have hname : IsFlagName ['-', c] := isFlagName_short.mpr hc
  obtain ⟨config, hg, ht⟩ := hb
  refine hname.parseArg ?_
  simp [flagWithValue, hname.splitFlag, CommandParams.flags, hg, ht]

/-- The letters of Bools, each as a token of its own. -/
theorem parseArgs_shortTokens : ∀ {letters : List Char} {out : List (ValidatedArg D)},
    (∀ c ∈ letters, IsLetter c ∧ IsBoolFlag cmd ['-', c]) →
    parseArgs cmd (shortTokens letters ++ iter) out = parseArgs cmd iter (out ++ shortFlags letters)
  | [], out, _ => by simp [shortTokens, shortFlags]
  | c :: letters, out, h => by
    obtain ⟨hc, hb⟩ := h c List.mem_cons_self
    have hrest := @parseArgs_shortTokens letters (out ++ [.string ['-', c]])
      fun d hd => h d (List.mem_cons_of_mem _ hd)
    show parseArgs cmd (['-', c] :: (shortTokens letters ++ iter)) out = _
    rw [parseArgs_cons, parseArg_bool hc hb]
    show parseArgs cmd (shortTokens letters ++ iter) (out ++ [.string ['-', c]]) = _
    rw [hrest, List.append_assoc]
    rfl

/-- A token that is no declared flag is read as a cluster. -/
theorem parseArg_cluster {c : Char} {chars : List Char} (hc : c ≠ '-')
    (hg : cmd.tool.parameters.get (splitFlag ('-' :: c :: chars) none).1 = none) :
    parseArg cmd ('-' :: c :: chars) iter out =
      (clusterFlags cmd.flags (c :: chars) iter out).mapError (cmd.denied .unknownFlag) := by
  have hlong : Str.startsWith ('-' :: c :: chars) "--" = false := by
    show ('-' == '-' && ('-' == c && true)) = false
    simp [Ne.symm hc]
  have hdash : (Str.startsWith ('-' :: c :: chars) "-" && 1 < Str.len ('-' :: c :: chars)) = true :=
    dash_longer.mpr ⟨startsWith_dash.mpr ⟨_, rfl⟩, by simp⟩
  unfold parseArg
  rw [if_neg (by simp [hc]), hlong, if_neg Bool.false_ne_true, if_pos hdash, processShortFlag,
    flagWithValue_undeclared hg]
  rfl

/-- What comes before the first `=` of a token that has none at its front. -/
theorem splitFlag_append {pre v : Str} (h : '=' ∉ pre) :
    (splitFlag (pre ++ v) none).1 = pre ++ (splitFlag v none).1 := by
  unfold splitFlag
  rw [splitOnce_append, splitOnce_none.mpr h]
  cases Str.splitOnce '=' v <;> rfl

theorem splitFlag_ne_nil {v : Str} (hne : v ≠ []) (heq : v.head? ≠ some '=') : (splitFlag v none).1 ≠ [] := by
  obtain ⟨c, v, rfl⟩ := List.exists_cons_of_ne_nil hne
  have hc : c ≠ '=' := fun h => heq (by rw [h]; rfl)
  have := @splitFlag_append [c] v (by simpa using Ne.symm hc)
  rw [List.singleton_append, List.singleton_append] at this
  rw [this]
  exact List.cons_ne_nil _ _

/-- A token that is longer than `-p` before its first `=` is no declared flag. -/
theorem NotDeclared.get_none {parameters : HashMap ParameterConfig} {p : Char} {pre v : Str}
    (h : NotDeclared parameters p (pre ++ v)) (hpre : '=' ∉ pre)
    (hlong : 2 < pre.length + (splitFlag v none).1.length) : parameters.get (splitFlag (pre ++ v) none).1 = none := by
  refine h _ (.inr rfl) fun heq => ?_
  rw [splitFlag_append hpre] at heq
  have hlen := congrArg List.length heq
  rw [List.length_append, List.length_cons, List.length_singleton] at hlen
  omega

/-- **The cluster and the separate tokens**: the loop does the same on them. -/
theorem parseArgs_cluster {letters : List Char} {p : Char} {v : Str} {after : List Str} (hne : letters ≠ [])
    (hletters : ∀ c ∈ letters, IsLetter c ∧ IsBoolFlag cmd ['-', c]) (hp : IsLetter p) (hv : v ≠ [])
    (heq : v.head? ≠ some '=') (hcluster : NotDeclared cmd.tool.parameters p ('-' :: (letters ++ p :: v)))
    (htoken : NotDeclared cmd.tool.parameters p ('-' :: p :: v)) :
    parseArgs cmd (('-' :: (letters ++ p :: v)) :: after) out =
      parseArgs cmd (shortTokens letters ++ ('-' :: p :: v) :: after) out := by
  have hno : '=' ∉ letters := fun h => (hletters _ h).1.2 rfl
  have hvname := List.length_pos_iff.mpr (splitFlag_ne_nil hv heq)
  have hpre : '=' ∉ '-' :: (letters ++ [p]) := by simp [hno, Ne.symm hp.2]
  have happ : '-' :: (letters ++ p :: v) = ('-' :: (letters ++ [p])) ++ v := by simp
  have hone : cmd.tool.parameters.get (splitFlag ('-' :: (letters ++ p :: v)) none).1 = none := by
    rw [happ] at hcluster ⊢
    refine hcluster.get_none hpre ?_
    rw [List.length_cons, List.length_append, List.length_singleton]
    omega
  have htwo : cmd.tool.parameters.get (splitFlag ('-' :: p :: v) none).1 = none := by
    refine @NotDeclared.get_none _ p ['-', p] v htoken (by simp [Ne.symm hp.2]) ?_
    rw [List.length_cons, List.length_singleton]
    omega
  have hrest : clusterFlags cmd.flags (letters ++ p :: v) after out =
      clusterFlags cmd.flags (p :: v) after (out ++ shortFlags letters) :=
    clusterFlags_bools fun c hc => (hletters c hc).2
  rw [parseArgs_shortTokens hletters, parseArgs_cons, parseArgs_cons, parseArg_cluster hp.1 htwo]
  obtain ⟨c, letters, rfl⟩ := List.exists_cons_of_ne_nil hne
  rw [List.cons_append] at hone hrest ⊢
  rw [parseArg_cluster (hletters c List.mem_cons_self).1.1 hone, hrest]

/-! ## Long flags -/

/-- A declared flag's token. -/
theorem parseArg_declared {arg : Str} {config : ParameterConfig} (hdash : Str.startsWith arg "-" = true)
    (hone : arg ≠ ['-']) (htwo : arg ≠ ['-', '-'])
    (hg : cmd.tool.parameters.get (splitFlag arg none).1 = some config) :
    parseArg cmd arg iter out = ((flagWithValue cmd.flags arg none iter out).map (·.getD (iter, out))).mapError
      (cmd.denied .unknownFlag) := by
  unfold parseArg
  rw [if_neg htwo]
  cases hf : flagWithValue cmd.flags arg none iter out with
  | error e =>
    split
    · rw [processLongFlag, hf]
      rfl
    · rw [if_pos (dash_longer.mpr ⟨hdash, hone⟩), processShortFlag, hf]
      rfl
  | ok done =>
    cases done with
    | none => cases hg.symm.trans (flagWithValue_none hf)
    | some r =>
      split
      · rw [processLongFlag, hf]
        rfl
      · rw [if_pos (dash_longer.mpr ⟨hdash, hone⟩), processShortFlag, hf]
        rfl

/-- **`name v` and `name=v`**: the loop does the same on them, whatever the value. -/
theorem parseArgs_equals {name v : Str} {after : List Str} (hname : IsFlagName name)
    (hvalue : TakesValue cmd.tool.parameters name) :
    parseArgs cmd (name :: v :: after) out = parseArgs cmd ((name ++ '=' :: v) :: after) out := by
  obtain ⟨config, hg, ht⟩ := hvalue
  have hdash := startsWith_dash.mpr hname.dash
  have hsplit : splitFlag (name ++ '=' :: v) none = (name, some v) := by
    simp [splitFlag, splitOnce_mid hname.no_eq]
  have hmem : ∀ t : Str, '=' ∉ t → name ++ '=' :: v ≠ t := fun t ht he => ht (he ▸ by simp)
  have hdash' : Str.startsWith (name ++ '=' :: v) "-" = true := by
    obtain ⟨cs, rfl⟩ := hname.dash
    exact startsWith_dash.mpr ⟨_, rfl⟩
  have hflag : flagWithValue cmd.flags name none (v :: after) out =
      flagWithValue cmd.flags (name ++ '=' :: v) none after out := by
    have hparams : cmd.flags.parameters = cmd.tool.parameters := rfl
    unfold flagWithValue
    rw [hname.splitFlag, hsplit]
    dsimp only
    rw [hparams, hg]
    dsimp only
    split
    · next hb => exact absurd hb ht
    · rfl
    · rfl
  rw [parseArgs_cons, parseArgs_cons,
    parseArg_declared hdash hname.ne_dash hname.ne_delimiter (by rw [hname.splitFlag]; exact hg),
    parseArg_declared hdash' (hmem _ (by decide)) (hmem _ (by decide)) (by rw [hsplit]; exact hg), hflag]
  cases hf : flagWithValue cmd.flags (name ++ '=' :: v) none after out with
  | error e => rfl
  | ok done =>
    cases done with
    | some r => rfl
    | none =>
      have hnone := flagWithValue_none hf
      rw [hsplit] at hnone
      cases hg.symm.trans hnone

/-! ## The command -/

/-- Where an argument is due, two spellings the loop does the same on are the same command. -/
theorem validateCommand_due {check : PathCheck D} {regexNew : Str → Option Regex} {policy : SecureSudoersPolicy}
    {toolName : Str} {tool : ToolPolicy} {before a b : List Str} (ht : policy.tools.get toolName = some tool)
    (hdue : flagDue tool before = true)
    (hsame : ∀ (cmd : CommandParams D) out, cmd.tool = tool → parseArgs cmd a out = parseArgs cmd b out) :
    validateCommand check regexNew policy toolName (before ++ a) =
      validateCommand check regexNew policy toolName (before ++ b) := by
  have hloop : ∀ (cmd : CommandParams D) before out, cmd.tool = tool → argumentDue tool.parameters before = true →
      parseArgs cmd (before ++ a) out = parseArgs cmd (before ++ b) out := by
    intro cmd before out hcmd hbefore
    obtain ⟨e, he⟩ | ⟨out', ho⟩ := @parseArgs_due D cmd before out (hcmd ▸ hbefore)
    · rw [he, he]
    · rw [ho, ho, hsame cmd out' hcmd]
  unfold validateCommand
  rw [ht]
  dsimp only
  split
  · rfl
  · split
    · rfl
    · unfold takeVerb
      unfold flagDue at hdue
      dsimp only
      split
      · next hverbs =>
        rw [if_pos hverbs] at hdue
        show (parseArgs _ (before ++ a) [] >>= _) = (parseArgs _ (before ++ b) [] >>= _)
        rw [hloop _ before [] rfl hdue]
      · next hverbs =>
        rw [if_neg hverbs] at hdue
        cases before with
        | nil => cases hdue
        | cons verb before =>
          simp only [List.cons_append]
          split
          · next hmem =>
            show (parseArgs _ (before ++ a) _ >>= _) = (parseArgs _ (before ++ b) _ >>= _)
            rw [hloop _ before _ rfl hdue]
          · rfl

/-- **The spellings of an option are alike**, where an argument is due: the
cluster and the separate tokens for every value that does not start with `=`, and
`name v` and `name=v` for every value. -/
theorem spellings_alike {check : PathCheck D} {regexNew : Str → Option Regex} {policy : SecureSudoersPolicy}
    {toolName : Str} {tool : ToolPolicy} {before after : List Str} (ht : policy.tools.get toolName = some tool)
    (hdue : flagDue tool before = true) :
    (∀ (letters : List Char) (p : Char) (v : Str), letters ≠ [] → (∀ c ∈ letters, IsLetter c) →
      (∀ c ∈ letters, ∃ config, tool.parameters.get ['-', c] = some config ∧ config.paramType = .bool) →
      IsLetter p → TakesValue tool.parameters ['-', p] → v ≠ [] → v.head? ≠ some '=' →
      NotDeclared tool.parameters p ('-' :: (letters ++ p :: v)) → NotDeclared tool.parameters p ('-' :: p :: v) →
      validateCommand check regexNew policy toolName (before ++ ('-' :: (letters ++ p :: v)) :: after) =
        validateCommand check regexNew policy toolName (before ++ (shortTokens letters ++ ('-' :: p :: v) :: after))) ∧
    ∀ (name v : Str), IsFlagName name → TakesValue tool.parameters name →
      validateCommand check regexNew policy toolName (before ++ name :: v :: after) =
        validateCommand check regexNew policy toolName (before ++ (name ++ '=' :: v) :: after) := by
  constructor
  · intro letters p v hne hletters hbools hp _ hv heq hcluster htoken
    refine validateCommand_due ht hdue fun cmd out hcmd => ?_
    subst hcmd
    exact parseArgs_cluster hne (fun c hc => ⟨hletters c hc, hbools c hc⟩) hp hv heq hcluster htoken
  · intro name v hname hvalue
    refine validateCommand_due ht hdue fun cmd out hcmd => ?_
    subst hcmd
    exact parseArgs_equals hname hvalue

theorem notDeclared_of {parameters : HashMap ParameterConfig} {p : Char} {token : Str}
    (h : parameters.get token = none) (hname : (splitFlag token none).1 = token) : NotDeclared parameters p token := by
  rintro name (rfl | rfl) _
  · exact h
  · rw [hname, h]

/-- `ls -lsx dir` and `ls -l -sx dir`; `ls -s -l dir` and `ls -s=-l dir`. -/
theorem spellings_alike_ls :
    validateCommand (checkPath lsTree) defaultRegexNew lsPolicy "ls" ["-lsx", "dir"] =
        validateCommand (checkPath lsTree) defaultRegexNew lsPolicy "ls" ["-l", "-sx", "dir"] ∧
      validateCommand (checkPath lsTree) defaultRegexNew lsPolicy "ls" ["-s", "-l", "dir"] =
        validateCommand (checkPath lsTree) defaultRegexNew lsPolicy "ls" ["-s=-l", "dir"] := by
  obtain ⟨hcluster, hequals⟩ := @spellings_alike Nat (checkPath lsTree) defaultRegexNew lsPolicy "ls" lsTool [] ["dir"]
    rfl rfl
  refine ⟨hcluster ['l'] 's' ['x'] (by simp) ?_ ?_ (by simp [IsLetter]) ⟨_, rfl, by decide⟩ (by simp) (by decide) ?_ ?_,
    hequals "-s" "-l" ⟨⟨_, rfl⟩, by decide, by decide, by decide⟩ ⟨_, rfl, by decide⟩⟩
  · simp [IsLetter]
  · simp only [List.mem_singleton, forall_eq]
    exact ⟨_, rfl, rfl⟩
  · exact notDeclared_of rfl rfl
  · exact notDeclared_of rfl rfl

/-- The same strings are emitted, or both commands are denied. -/
def SameOutcome (r r' : Except ValidationDenial (ValidationResult D)) : Prop :=
  r.toOption.map (fun res => texts res.command.args) = r'.toOption.map fun res => texts res.command.args

/-- `ls -ls=v` and `ls -l -s=v`: the value of `-s` is `=v` in one and `v` in the other. -/
theorem spellings_differ :
    ¬∀ (fs : FileSystem Nat) (regexNew : Str → Option Regex) (policy : SecureSudoersPolicy) (toolName : Str)
      (tool : ToolPolicy) (before after : List Str) (letters : List Char) (p : Char) (v : Str),
      policy.tools.get toolName = some tool → letters ≠ [] → (∀ c ∈ letters, IsLetter c) →
      (∀ c ∈ letters, ∃ config, tool.parameters.get ['-', c] = some config ∧ config.paramType = .bool) →
      IsLetter p → TakesValue tool.parameters ['-', p] → v ≠ [] →
      NotDeclared tool.parameters p ('-' :: (letters ++ p :: v)) → NotDeclared tool.parameters p ('-' :: p :: v) →
      SameOutcome
        (validateCommand (checkPath fs) regexNew policy toolName (before ++ ('-' :: (letters ++ p :: v)) :: after))
        (validateCommand (checkPath fs) regexNew policy toolName
          (before ++ (shortTokens letters ++ ('-' :: p :: v) :: after))) := by
  intro h
  have hsame := h lsTree defaultRegexNew lsPolicy "ls" lsTool [] [] ['l'] 's' ['=', 'v'] rfl (by simp)
    (by simp [IsLetter]) (by simp only [List.mem_singleton, forall_eq]; exact ⟨_, rfl, rfl⟩) (by simp [IsLetter])
    ⟨_, rfl, by decide⟩ (by simp) ?_ ?_
  · exact absurd (congrArg (·.map (·.map List.length)) hsame) (by decide)
  · rintro name (rfl | rfl) _ <;> rfl
  · rintro name (rfl | rfl) hne
    · rfl
    · exact absurd rfl hne

end SecureSudoers
