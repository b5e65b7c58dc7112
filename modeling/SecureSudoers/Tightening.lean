/-
Tightening a policy: entries are added to its blocked paths or to `disallowed`
lists, taken out of `allowed` lists that are there, or verbs are taken out
while one remains.

No function of the validator then accepts anything new, or reads a token
differently: how the arguments are split into flags and values depends on the
declared names and types alone, and every check only gets stricter. So each
function under the tightened policy `Refines` the same one under the other, and
`validateCommand_tightened` composes them.
-/
import SecureSudoers.ValidatedUnits

namespace SecureSudoers

variable {D : Type}

/-! ## Tightened policies -/

structure ParameterConfig.TightenedTo (c c' : ParameterConfig) : Prop where
  same : c' = { c with allowed := c'.allowed, disallowed := c'.disallowed }
  allowed : Option.Rel (fun a a' => a' ⊆ a) c.allowed c'.allowed
  disallowed : c.disallowed.getD [] ⊆ c'.disallowed.getD []

theorem ParameterConfig.TightenedTo.refl {c : ParameterConfig} : c.TightenedTo c where
  same := rfl
  allowed := by
    cases c.allowed with
    | none => exact .none
    | some a => exact .some (List.Subset.refl a)
  disallowed := List.Subset.refl _

structure ToolPolicy.TightenedTo (t t' : ToolPolicy) : Prop where
  same : t' = { t with verbs := t'.verbs, parameters := t'.parameters, positional := t'.positional }
  verbs : t'.verbs ⊆ t.verbs
  verb_remains : t.verbs ≠ [] → t'.verbs ≠ []
  parameters : ∀ name, Option.Rel ParameterConfig.TightenedTo (t.parameters.get name) (t'.parameters.get name)
  positional : Option.Rel ParameterConfig.TightenedTo t.positional t'.positional

structure GlobalSettings.TightenedTo (g g' : GlobalSettings) : Prop where
  same : g' = { g with blockedPaths := g'.blockedPaths }
  blockedPaths : g.blockedPaths ⊆ g'.blockedPaths

/-- `p'` is `p`, tightened. -/
structure SecureSudoersPolicy.TightenedTo (p p' : SecureSudoersPolicy) : Prop where
  same : p' = { p with globalSettings := p'.globalSettings, tools := p'.tools }
  globalSettings : p.globalSettings.TightenedTo p'.globalSettings
  tools : ∀ name, Option.Rel ToolPolicy.TightenedTo (p.tools.get name) (p'.tools.get name)

/-! ## Values -/

namespace ParameterConfig.TightenedTo

variable {c c' : ParameterConfig}

theorem paramType (h : c.TightenedTo c') : c'.paramType = c.paramType := by rw [h.same]

theorem isExplicitlyDisallowed (h : c.TightenedTo c') {val : Str} (hd : c.isExplicitlyDisallowed val = true) :
    c'.isExplicitlyDisallowed val = true := by
  have hiff : ∀ c : ParameterConfig, c.isExplicitlyDisallowed val = true ↔ val ∈ c.disallowed.getD [] := by
    intro c
    unfold ParameterConfig.isExplicitlyDisallowed
    cases c.disallowed <;> simp
  rw [hiff] at hd ⊢
  exact h.disallowed hd

/-- The rules are a disjunction, in which the list only has fewer entries. -/
theorem matchesAllowedOrRegex (h : c.TightenedTo c') {val : Str} (hm : c'.matchesAllowedOrRegex val = true) :
    c.matchesAllowedOrRegex val = true := by
  have hregex : c'.regex = c.regex := by rw [h.same]
  have hcompiled : c'.compiledRegex = c.compiledRegex := by rw [h.same]
  have hallowed := h.allowed
  unfold ParameterConfig.matchesAllowedOrRegex at hm ⊢
  rw [hregex, hcompiled] at hm
  revert hm hallowed
  generalize c.allowed = a, c'.allowed = a'
  intro hm hallowed
  cases hallowed with
  | none => exact hm
  | @some a a' hsub =>
    have hany : a'.any (· == val) = true → a.any (· == val) = true := by
      simp only [List.any_eq_true, beq_iff_eq]
      exact fun ⟨x, hx, he⟩ => ⟨x, hsub hx, he⟩
    cases hr : c.regex with
    | none =>
      rw [hr] at hm
      exact hany hm
    | some r =>
      rw [hr] at hm
      exact Bool.or_eq_true_iff.mpr ((Bool.or_eq_true_iff.mp hm).imp_left hany)

theorem admits (h : c.TightenedTo c') {val : Str} (ha : c'.admits val = true) : c.admits val = true := by
  unfold ParameterConfig.admits at ha ⊢
  split at ha
  · cases ha
  · next hd =>
    rw [if_neg fun hc => hd (h.isExplicitlyDisallowed hc)]
    exact h.matchesAllowedOrRegex ha

end ParameterConfig.TightenedTo

/-- More blocked paths only refuse more. -/
theorem checkPath_refines {fs : FileSystem D} {arg : Str} {context : ValidationContext} {blocked blocked' : List Str}
    (h : blocked ⊆ blocked') : Refines (checkPath fs arg context blocked') (checkPath fs arg context blocked) := by
  intro p hp
  obtain ⟨habs, ts, vis, hr, hlen, htext, hub, hpath⟩ := checkPath_accepts.mp hp
  exact checkPath_accepts.mpr ⟨habs, ts, vis, hr, hlen, htext, fun v hv b hb => hub v hv b (h hb), hpath⟩

/-! ## The command under the tightened policy -/

/-- What the loop reads of a policy and of the tightened one. -/
structure CommandParams.TightenedTo (fs : FileSystem D) (cmd cmd' : CommandParams D) : Prop where
  check : cmd.check = checkPath fs
  check' : cmd'.check = checkPath fs
  safeRe : cmd'.safeRe = cmd.safeRe
  blockedPaths : cmd.blockedPaths ⊆ cmd'.blockedPaths
  tool : cmd.tool.TightenedTo cmd'.tool

variable {fs : FileSystem D} {cmd cmd' : CommandParams D}

namespace CommandParams.TightenedTo

variable (h : cmd.TightenedTo fs cmd')
include h

theorem checks {raw : Str} {context : ValidationContext} {p : SecurePath D}
    (hp : cmd'.check raw context cmd'.blockedPaths = .ok p) : cmd.check raw context cmd.blockedPaths = .ok p := by
  rw [h.check'] at hp
  rw [h.check]
  exact checkPath_refines h.blockedPaths p hp

omit h in
theorem pushString {name val : Str} {c c' : ParameterConfig} {out : List (ValidatedArg D)} (hc : c.TightenedTo c') :
    Refines (pushStringFlagValue cmd'.flags name val c' out) (pushStringFlagValue cmd.flags name val c out) := by
  intro out' ho
  obtain ⟨hadm, rfl⟩ := pushStringFlagValue_ok.mp ho
  exact pushStringFlagValue_ok.mpr ⟨hc.admits hadm, rfl⟩

theorem pushPath {name val : Str} {c c' : ParameterConfig} {out : List (ValidatedArg D)} (hc : c.TightenedTo c') :
    Refines (pushPathFlagValue cmd'.flags name val c' out) (pushPathFlagValue cmd.flags name val c out) := by
  intro out' ho
  obtain ⟨p, ⟨hp, hadm⟩, rfl⟩ := pushPathFlagValue_ok.mp ho
  exact pushPathFlagValue_ok.mpr ⟨p, ⟨h.checks hp, hc.admits hadm⟩, rfl⟩

/-- A flag takes the same tokens, and its value passes. -/
theorem flagWithValue {flag : Str} {attachedValue : Option Str} {iter : List Str} {out : List (ValidatedArg D)} :
    Refines (flagWithValue cmd'.flags flag attachedValue iter out)
      (flagWithValue cmd.flags flag attachedValue iter out) := by
  unfold SecureSudoers.flagWithValue
  obtain ⟨name, provided⟩ := splitFlag flag attachedValue
  dsimp only
  have hrel : Option.Rel _ (cmd.flags.parameters.get name) (cmd'.flags.parameters.get name) := h.tool.parameters name
  revert hrel
  generalize cmd.flags.parameters.get name = o, cmd'.flags.parameters.get name = o'
  intro hrel
  cases hrel with
  | none => exact .refl _
  | @some c c' hc =>
    dsimp only
    rw [hc.paramType]
    cases c.paramType with
    | bool => exact .refl _
    | string => exact (Refines.refl _).bind fun r => (pushString hc).bind fun _ => .refl _
    | path => exact (Refines.refl _).bind fun r => (h.pushPath hc).bind fun _ => .refl _

theorem clusterFlags : ∀ {chars : List Char} {iter : List Str} {out : List (ValidatedArg D)},
    Refines (clusterFlags cmd'.flags chars iter out) (clusterFlags cmd.flags chars iter out)
  | [], _, _ => .refl _
  | c :: chars, iter, out => by
    unfold SecureSudoers.clusterFlags
    dsimp only
    have hrel : Option.Rel _ (cmd.flags.parameters.get ['-', c]) (cmd'.flags.parameters.get ['-', c]) :=
      h.tool.parameters ['-', c]
    revert hrel
    generalize cmd.flags.parameters.get ['-', c] = o, cmd'.flags.parameters.get ['-', c] = o'
    intro hrel
    cases hrel with
    | none => exact .error
    | @some d d' hd =>
      dsimp only
      rw [hd.paramType]
      exact .ite (fun _ => h.flagWithValue.bind fun _ => .refl _) fun _ => clusterFlags

theorem processLongFlag {flag : Str} {iter : List Str} {out : List (ValidatedArg D)} :
    Refines (processLongFlag cmd'.flags flag iter out) (processLongFlag cmd.flags flag iter out) := by
  refine h.flagWithValue.bind fun done => ?_
  cases done with
  | none => exact .error
  | some done => exact .refl _

theorem processShortFlag {arg : Str} {iter : List Str} {out : List (ValidatedArg D)} :
    Refines (processShortFlag cmd'.flags arg iter out) (processShortFlag cmd.flags arg iter out) := by
  refine h.flagWithValue.bind fun done => ?_
  cases done with
  | none => exact h.clusterFlags
  | some done => exact .refl _

/-- What passed as a positional passes still. -/
theorem positional {context : ValidationContext} {raw : Str} {u : List (ValidatedArg D)}
    (hp : Positional cmd' context raw u) : Positional cmd context raw u := by
  have hrel := h.tool.positional
  cases hp with
  | @path c' p hsafe hc ht hchk hadm =>
    rw [h.safeRe] at hsafe
    rw [hc] at hrel
    cases hcfg : cmd.tool.positional with
    | none =>
      rw [hcfg] at hrel
      cases hrel
    | some c =>
      rw [hcfg] at hrel
      cases hrel with
      | some hcc => exact .path hsafe hcfg (hcc.paramType.symm.trans ht) (h.checks hchk) (hcc.admits hadm)
  | plain hsafe hrules hdash =>
    rw [h.safeRe] at hsafe
    refine .plain hsafe (fun c hcfg => ?_) hdash
    rw [hcfg] at hrel
    cases hc : cmd'.tool.positional with
    | none =>
      rw [hc] at hrel
      cases hrel
    | some c' =>
      rw [hc] at hrel
      obtain ⟨ht, hadm⟩ := hrules c' hc
      cases hrel with
      | some hcc => exact ⟨hcc.paramType ▸ ht, hcc.admits hadm⟩

theorem pushPositional {context : ValidationContext} {arg : Str} {out : List (ValidatedArg D)} :
    Refines (pushPositional (cmd'.positionals context) arg out) (pushPositional (cmd.positionals context) arg out) := by
  intro out' ho
  obtain ⟨u, hu, rfl⟩ := pushPositional_emits ho
  exact pushPositional_of (h.positional hu)

theorem pushPositionals {context : ValidationContext} : ∀ {args : List Str} {out : List (ValidatedArg D)},
    Refines (pushPositionals (cmd'.positionals context) args out) (pushPositionals (cmd.positionals context) args out)
  | [], _ => .refl _
  | _ :: _, _ => h.pushPositional.bind fun _ => pushPositionals

/-- **One argument**: the same tokens are consumed, and the same are emitted. -/
theorem parseArg {arg : Str} {iter : List Str} {out : List (ValidatedArg D)} :
    Refines (parseArg cmd' arg iter out) (parseArg cmd arg iter out) := by
  unfold SecureSudoers.parseArg
  refine .ite (fun _ => h.pushPositionals.map.mapError) fun _ => ?_
  refine .ite (fun _ => h.processLongFlag.mapError) fun _ => ?_
  exact .ite (fun _ => h.processShortFlag.mapError) fun _ => h.pushPositional.map.mapError

theorem parseArgsN : ∀ {fuel : Nat} {iter : List Str} {out : List (ValidatedArg D)},
    Refines (parseArgsN cmd' fuel iter out) (parseArgsN cmd fuel iter out)
  | _, [], _ => by
    unfold SecureSudoers.parseArgsN
    exact .refl _
  | 0, _ :: _, _ => .refl _
  | _ + 1, _ :: _, _ => h.parseArg.bind fun _ => parseArgsN

theorem takeVerb {iter : List Str} : Refines (takeVerb cmd' iter) (takeVerb cmd iter) := by
  intro r hr
  obtain ⟨iter', out⟩ := r
  unfold SecureSudoers.takeVerb
  obtain ⟨hnil, rfl, rfl⟩ | ⟨verb, hm, rfl, rfl⟩ := takeVerb_ok hr
  · have hnone : cmd.tool.verbs = [] := Classical.byContradiction fun hne => h.tool.verb_remains hne hnil
    rw [if_pos hnone]
  · have hm' : verb ∈ cmd.tool.verbs := h.tool.verbs hm
    rw [if_neg (List.ne_nil_of_mem hm')]
    exact if_pos hm'

end CommandParams.TightenedTo

/-! ## The command -/

variable {regexNew : Str → Option Regex} {policy policy' : SecureSudoersPolicy} {toolName : Str} {args : List Str}

/-- **Tightening a policy enables no command and changes none**: what is accepted
under the tightened policy is accepted under the other, with the same result. -/
theorem validateCommand_tightened {res : ValidationResult D} (h : policy.TightenedTo policy')
    (hok : validateCommand (checkPath fs) regexNew policy' toolName args = .ok res) :
    validateCommand (checkPath fs) regexNew policy toolName args = .ok res := by
  have hsafe : policy'.globalSettings.safeArgRegex = policy.globalSettings.safeArgRegex := by
    rw [h.globalSettings.same]
  have hisolation : policy'.globalSettings.defaultIsolation = policy.globalSettings.defaultIsolation := by
    rw [h.globalSettings.same]
  have henv : policy'.globalSettings.commonEnvWhitelist = policy.globalSettings.commonEnvWhitelist := by
    rw [h.globalSettings.same]
  have hrel := h.tools toolName
  unfold validateCommand at hok ⊢
  revert hrel hok
  generalize policy.tools.get toolName = o, policy'.tools.get toolName = o'
  intro hok hrel
  cases hrel with
  | none => cases hok
  | @some t t' ht =>
    have hbinary : t'.realBinary = t.realBinary := by rw [ht.same]
    have hid : t'.id = t.id := by rw [ht.same]
    have hisolation' : t'.isolation = t.isolation := by rw [ht.same]
    have henv' : t'.envWhitelist = t.envWhitelist := by rw [ht.same]
    dsimp only at hok ⊢
    rw [hsafe, hisolation, henv, hbinary, hid, hisolation', henv'] at hok
    cases hb : checkPath fs t.realBinary .positional policy'.globalSettings.blockedPaths with
    | error e =>
      rw [hb] at hok
      cases hok
    | ok binary =>
      rw [hb] at hok
      rw [checkPath_refines h.globalSettings.blockedPaths _ hb]
      dsimp only at hok ⊢
      cases hre : regexNew policy.globalSettings.safeArgRegex with
      | none =>
        rw [hre] at hok
        cases hok
      | some safeRe =>
        rw [hre] at hok
        have hcmd : ∀ ruleId, CommandParams.TightenedTo fs
            { toolName := toolName, tool := t, ruleId := ruleId, safeRe := safeRe,
              blockedPaths := policy.globalSettings.blockedPaths, check := checkPath fs }
            { toolName := toolName, tool := t', ruleId := ruleId, safeRe := safeRe,
              blockedPaths := policy'.globalSettings.blockedPaths, check := checkPath fs } :=
          fun _ => ⟨rfl, rfl, rfl, h.globalSettings.blockedPaths, ht⟩
        refine Refines.bind (hcmd _).takeVerb (fun r => ?_) res hok
        exact Refines.bind (hcmd _).parseArgsN fun _ => .refl _

/-- `ls` whose `-s` may not be `-y`, where nothing below `/bin/sub` is named. -/
def tightLsTool : ToolPolicy :=
  { lsTool with
    parameters := ⟨[("-l", { paramType := .bool }), ("-s", { paramType := .string, disallowed := some ["-y"] })],
      lsTool.parameters.nodup⟩ }

def tightLsPolicy : SecureSudoersPolicy :=
  { globalSettings := { blockedPaths := "/bin/sub" :: defaultBlockedPaths }, tools := .single "ls" tightLsTool }

theorem lsTool_tightened : lsTool.TightenedTo tightLsTool where
  same := rfl
  verbs := List.Subset.refl _
  verb_remains h := h
  parameters name := by
    by_cases hl : name = "-l"
    · subst hl
      exact .some .refl
    · by_cases hs : name = "-s"
      · subst hs
        exact .some ⟨rfl, .none, List.nil_subset _⟩
      · have hget : ∀ c₁ c₂ : ParameterConfig, ∀ h, HashMap.get ⟨[("-l", c₁), ("-s", c₂)], h⟩ name = none := by
          intro c₁ c₂ h
          simpa [HashMap.get] using And.intro (Ne.symm hl) (Ne.symm hs)
        rw [show lsTool.parameters.get name = none from hget _ _ _,
          show tightLsTool.parameters.get name = none from hget _ _ _]
        exact .none
  positional := .none

/-- `ls -ls -x dir` passes under the tightened policy, so under the other. -/
theorem validateCommand_tightened_ls :
    (validateCommand (checkPath lsTree) defaultRegexNew lsPolicy "ls" ["-ls", "-x", "dir"]).toOption.map
        (fun res => (res.command.binary, res.command.args)) =
      some (⟨"/bin/ls", 2⟩, [.string "-l", .string "-s", .string "-x", .string "dir"]) := by
  have hok : validateCommand (checkPath lsTree) defaultRegexNew tightLsPolicy "ls" ["-ls", "-x", "dir"] =
      .ok { command := { binary := ⟨"/bin/ls", 2⟩,
                         args := [.string "-l", .string "-s", .string "-x", .string "dir"],
                         isolation := {}, envWhitelist := defaultCommonEnvWhitelist },
            ruleId := "ls" } := by rfl
  have htight : lsPolicy.TightenedTo tightLsPolicy := by
    refine ⟨rfl, ⟨rfl, List.subset_cons_self _ _⟩, fun name => ?_⟩
    by_cases hname : name = "ls"
    · subst hname
      exact .some lsTool_tightened
    · have hget : ∀ t : ToolPolicy, (HashMap.single "ls" t).get name = none := by
        intro t
        simpa [HashMap.get, HashMap.single] using Ne.symm hname
      rw [show lsPolicy.tools.get name = none from hget _, show tightLsPolicy.tools.get name = none from hget _]
      exact .none
  rw [validateCommand_tightened htight hok]
  rfl

end SecureSudoers
