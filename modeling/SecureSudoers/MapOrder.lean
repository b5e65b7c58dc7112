/-
The order in which maps enumerate their entries. Each process seeds its maps anew,
so the installer, the check and the wrapper go through the tools and parameters of
one policy in orders of their own.

The order decides nothing: an invocation is decided the same way and a check ends
the same way in every order (`decision_reordered`), and an installation leaves the
same files (`install_reordered`). Only which of several faults a refused policy is
refused for may differ.
-/
import SecureSudoers.RedactionOrder
import SecureSudoers.StaysInstalled

namespace SecureSudoers

variable {D : Type}

/-! ## The same policy in another order -/

/-- The same parameters, in another order. -/
structure ToolPolicy.Reordered (tool tool' : ToolPolicy) : Prop where
  rest : tool' = { tool with parameters := tool'.parameters }
  parameters (flag : Str) : tool'.parameters.get flag = tool.parameters.get flag

/-- The same tools, in another order, and so their parameters. -/
structure SecureSudoersPolicy.Reordered (policy policy' : SecureSudoersPolicy) : Prop where
  rest : policy' = { policy with tools := policy'.tools }
  tools (name : Str) : Option.Rel ToolPolicy.Reordered (policy.tools.get name) (policy'.tools.get name)

/-- What two processes make of one text. -/
inductive ReadAlike : Except Str SecureSudoersPolicy → Except Str SecureSudoersPolicy → Prop where
  | ok {policy policy' : SecureSudoersPolicy} : policy.Reordered policy' → ReadAlike (.ok policy) (.ok policy')
  | error {e : Str} : ReadAlike (.error e) (.error e)

variable {tool tool' : ToolPolicy} {policy policy' : SecureSudoersPolicy} {fs : FileSystem D}
  {regexNew : Str → Option Regex} {name : Str}

theorem ToolPolicy.Reordered.symm (h : tool.Reordered tool') : tool'.Reordered tool where
  rest := by
    rw [h.rest]
  parameters flag := (h.parameters flag).symm

theorem SecureSudoersPolicy.Reordered.symm (h : policy.Reordered policy') : policy'.Reordered policy where
  rest := by
    rw [h.rest]
  tools name := by
    have hrel := h.tools name
    generalize policy.tools.get name = found, policy'.tools.get name = found' at hrel ⊢
    cases hrel with
    | some htool => exact .some htool.symm
    | none => exact .none

theorem ReadAlike.symm {r r' : Except Str SecureSudoersPolicy} (h : ReadAlike r r') : ReadAlike r' r := by
  cases h with
  | ok hpolicy => exact .ok hpolicy.symm
  | error => exact .error

/-- A tool of one is a tool of the other. -/
theorem SecureSudoersPolicy.Reordered.get_tool (h : policy.Reordered policy') (hget : policy.tools.get name = some tool) :
    ∃ tool', policy'.tools.get name = some tool' ∧ tool.Reordered tool' := by
  have hrel := h.tools name
  generalize policy'.tools.get name = found' at hrel ⊢
  rw [hget] at hrel
  cases hrel with
  | some htool => exact ⟨_, rfl, htool⟩

theorem SecureSudoersPolicy.Reordered.keys (h : policy.Reordered policy') :
    policy.tools.keys.Perm policy'.tools.keys := by
  have hsub : ∀ {policy policy' : SecureSudoersPolicy}, policy.Reordered policy' →
      ∀ name ∈ policy.tools.keys, name ∈ policy'.tools.keys := by
    intro policy policy' h name hname
    obtain ⟨⟨_, tool⟩, hentry, rfl⟩ := List.mem_map.mp hname
    obtain ⟨tool', hget, -⟩ := h.get_tool (HashMap.get_of_mem hentry)
    exact List.mem_map.mpr ⟨_, HashMap.mem_of_get hget, rfl⟩
  refine (List.perm_ext_iff_of_nodup policy.tools.nodup policy'.tools.nodup).mpr fun name => ?_
  exact ⟨hsub h name, hsub h.symm name⟩

/-- In the order of the names there is no difference. -/
theorem mergeSort_perm {names names' : List Str} (h : names.Perm names') : names.mergeSort strLe = names'.mergeSort strLe := by
  refine List.Perm.eq_of_pairwise ?_ (sorted_mergeSort names) (sorted_mergeSort names') ?_
  · intro a b _ _ hab hba
    exact Utf8.encode_inj.mp (List.le_antisymm (strLe_iff.mp hab) (strLe_iff.mp hba))
  · exact (List.mergeSort_perm names strLe).trans (h.trans (List.mergeSort_perm names' strLe).symm)

/-! ## Validation -/

theorem ToolPolicy.Reordered.canonical (h : tool.Reordered tool') :
    (tool.canonical fs regexNew).Reordered (tool'.canonical fs regexNew) where
  rest := by
    rw [h.rest]
    rfl
  parameters flag := by
    show (tool'.parameters.mapValues _).get flag = (tool.parameters.mapValues _).get flag
    rw [HashMap.get_mapValues, HashMap.get_mapValues, h.parameters]

theorem ToolPolicy.Reordered.ok (h : tool.Reordered tool') (hok : ToolOk fs regexNew name tool) :
    ToolOk fs regexNew name tool' where
  name_valid := hok.name_valid
  binary_absolute := by
    rw [h.rest]
    exact hok.binary_absolute
  parameters entry hentry := by
    have hget := HashMap.get_of_mem hentry
    rw [h.parameters] at hget
    exact hok.parameters entry (HashMap.mem_of_get hget)
  positional := by
    rw [h.rest]
    exact hok.positional

/-- **Validation accepts in every order**, and leaves the order. -/
theorem validate_reordered {valid : SecureSudoersPolicy} (h : policy.Reordered policy')
    (hvalid : policy.validate fs regexNew = .ok valid) :
    ∃ valid', policy'.validate fs regexNew = .ok valid' ∧ valid.Reordered valid' := by
  obtain ⟨hok, rfl⟩ := validate_ok.mp hvalid
  refine ⟨_, validate_ok.mpr ⟨⟨?_, ?_, ?_⟩, rfl⟩, ?_, ?_⟩
  · rw [h.rest]
    exact hok.safeArgRegex
  · rw [h.rest]
    exact hok.blocked
  · intro entry hentry
    obtain ⟨tool, hget, htool⟩ := h.symm.get_tool (HashMap.get_of_mem hentry)
    exact htool.symm.ok (hok.tools (entry.1, tool) (HashMap.mem_of_get hget))
  · rw [h.rest]
    rfl
  · intro name
    show Option.Rel _ ((policy.tools.mapValues _).get name) ((policy'.tools.mapValues _).get name)
    rw [HashMap.get_mapValues, HashMap.get_mapValues]
    have hrel := h.tools name
    generalize policy.tools.get name = found, policy'.tools.get name = found' at hrel ⊢
    cases hrel with
    | some htool => exact .some htool.canonical
    | none => exact .none

/-! ## Decisions -/

section

variable {params : ValidationParams D} {parameters : HashMap ParameterConfig} {cmd : CommandParams D}
  {out : List (ValidatedArg D)}

theorem flagWithValue_reordered (h : ∀ flag, parameters.get flag = params.parameters.get flag) {flag : Str}
    {attachedValue : Option Str} {iter : List Str} : flagWithValue { params with parameters } flag attachedValue iter out =
      flagWithValue params flag attachedValue iter out := by
  unfold flagWithValue
  simp only [h]
  rfl

theorem clusterFlags_reordered (h : ∀ flag, parameters.get flag = params.parameters.get flag) {iter : List Str} :
    ∀ {chars : List Char} {out : List (ValidatedArg D)},
      clusterFlags { params with parameters } chars iter out = clusterFlags params chars iter out
  | [], _ => rfl
  | c :: chars, out => by
    unfold clusterFlags
    simp only [h, flagWithValue_reordered h, clusterFlags_reordered h]
    rfl

theorem parseArg_reordered (h : cmd.tool.Reordered tool') {arg : Str} {iter : List Str} :
    parseArg { cmd with tool := tool' } arg iter out = parseArg cmd arg iter out := by
  have hflags : ({ cmd with tool := tool' } : CommandParams D).flags =
      { cmd.flags with parameters := tool'.parameters } := rfl
  have hpositionals : ({ cmd with tool := tool' } : CommandParams D).positionals = cmd.positionals := by
    rw [h.rest]
    rfl
  have hget : ∀ flag, tool'.parameters.get flag = cmd.flags.parameters.get flag := h.parameters
  unfold parseArg processLongFlag processShortFlag
  rw [hflags, hpositionals]
  simp only [flagWithValue_reordered hget, clusterFlags_reordered hget]
  rfl

theorem parseArgsN_reordered (h : cmd.tool.Reordered tool') : ∀ {fuel : Nat} {iter : List Str}
    {out : List (ValidatedArg D)}, parseArgsN { cmd with tool := tool' } fuel iter out = parseArgsN cmd fuel iter out
  | 0, [], _ | 0, _ :: _, _ | _ + 1, [], _ => rfl
  | fuel + 1, arg :: iter, out => by
    unfold parseArgsN
    simp only [parseArg_reordered h, parseArgsN_reordered h]

end

/-- **A command is validated in the same way**, or denied for the same reason. -/
theorem validateCommand_reordered {check : PathCheck D} {rawArgs : List Str} (h : policy.Reordered policy') :
    validateCommand check regexNew policy' name rawArgs = validateCommand check regexNew policy name rawArgs := by
  have hsettings : policy'.globalSettings = policy.globalSettings := by rw [h.rest]
  have hrel := h.tools name
  unfold validateCommand
  rw [hsettings]
  generalize policy.tools.get name = found, policy'.tools.get name = found' at hrel ⊢
  cases hrel with
  | none => rfl
  | @some tool tool' htool =>
    have hid : tool'.id = tool.id := by rw [htool.rest]
    have hbinary : tool'.realBinary = tool.realBinary := by rw [htool.rest]
    have hverbs : tool'.verbs = tool.verbs := by rw [htool.rest]
    have hisolation : tool'.isolation = tool.isolation := by rw [htool.rest]
    have henv : tool'.envWhitelist = tool.envWhitelist := by rw [htool.rest]
    have hverb : ∀ ruleId safeRe blockedPaths iter,
        takeVerb { toolName := name, tool := tool', ruleId, safeRe, blockedPaths, check : CommandParams D } iter =
          takeVerb { toolName := name, tool, ruleId, safeRe, blockedPaths, check } iter := by
      intro ruleId safeRe blockedPaths iter
      unfold takeVerb
      rw [hverbs]
    have hargs : ∀ ruleId safeRe blockedPaths iter out,
        parseArgs { toolName := name, tool := tool', ruleId, safeRe, blockedPaths, check : CommandParams D } iter out =
          parseArgs { toolName := name, tool, ruleId, safeRe, blockedPaths, check } iter out := by
      intro ruleId safeRe blockedPaths iter out
      exact @parseArgsN_reordered D tool' { toolName := name, tool, ruleId, safeRe, blockedPaths, check } htool _ iter out
    simp only [hid, hbinary, hverb, hargs, hisolation, henv]

/-! ## The wrapper and the check -/

variable {host : SigningHost} {fromSlice : Bytes → Except Str SecureSudoersPolicy}
  {fromStr fromStr' : Str → Except Str SecureSudoersPolicy} {st : Storage} {path pubkeyPath : Str}

theorem load_reordered (h : ∀ bytes, ReadAlike (host.fromSlice bytes) (fromSlice bytes))
    (hload : host.loadPolicyWithPubkey st path pubkeyPath = .ok policy) : ∃ policy',
      ({ host with fromSlice } : SigningHost).loadPolicyWithPubkey st path pubkeyPath = .ok policy' ∧
        policy.Reordered policy' := by
  obtain ⟨bytes, parsed, hsigned, hparsed, hvalid⟩ := loadPolicyWithPubkey_iff.mp hload
  have halike := h bytes
  rw [hparsed] at halike
  generalize hparsed' : fromSlice bytes = parsed' at halike
  cases halike with
  | ok hreordered =>
    obtain ⟨valid', hvalid', hpolicy⟩ := validate_reordered hreordered hvalid
    exact ⟨valid', loadPolicyWithPubkey_iff.mpr ⟨bytes, _, ⟨hsigned.policy, hsigned.signature⟩, hparsed', hvalid'⟩, hpolicy⟩

theorem check_reordered (h : ∀ content, ReadAlike (fromStr content) (fromStr' content))
    (hcheck : host.cmdCheck fromStr st path = .ok ()) : host.cmdCheck fromStr' st path = .ok () := by
  obtain ⟨content, parsed, valid, hread, hparsed, hvalid, hbinaries⟩ := cmdCheck_ok.mp hcheck
  have halike := h content
  rw [hparsed] at halike
  generalize hparsed' : fromStr' content = parsed' at halike
  cases halike with
  | ok hreordered =>
    obtain ⟨valid', hvalid', hpolicy⟩ := validate_reordered hreordered hvalid
    refine cmdCheck_ok.mpr ⟨content, _, valid', hread, hparsed', hvalid', fun entry hentry => ?_⟩
    obtain ⟨tool, hget, htool⟩ := hpolicy.symm.get_tool (HashMap.get_of_mem hentry)
    have hbinary : tool.realBinary = entry.2.realBinary := by rw [htool.rest]
    rw [← hbinary]
    exact hbinaries (entry.1, tool) (HashMap.mem_of_get hget)

/-- **The order decides nothing.** An invocation under the policy that the wrapper
loads is accepted with the same command, or denied for the same reason, in every
order of its maps; and a check succeeds in all orders or in none. -/
theorem decision_reordered {check : PathCheck D} {rawArgs : List Str} {r : Except ValidationDenial (ValidationResult D)}
    (hslice : ∀ bytes, ReadAlike (host.fromSlice bytes) (fromSlice bytes))
    (hstr : ∀ content, ReadAlike (fromStr content) (fromStr' content)) :
    ((∃ policy, host.loadPolicyWithPubkey st path pubkeyPath = .ok policy ∧
        validateCommand check regexNew policy name rawArgs = r) ↔
      ∃ policy, ({ host with fromSlice } : SigningHost).loadPolicyWithPubkey st path pubkeyPath = .ok policy ∧
        validateCommand check regexNew policy name rawArgs = r) ∧
    (host.cmdCheck fromStr st path = .ok () ↔ host.cmdCheck fromStr' st path = .ok ()) := by
  refine ⟨⟨?_, ?_⟩, check_reordered hstr, check_reordered fun content => (hstr content).symm⟩
  · intro h
    obtain ⟨policy, hload, rfl⟩ := h
    obtain ⟨policy', hload', hpolicy⟩ := load_reordered hslice hload
    exact ⟨policy', hload', validateCommand_reordered hpolicy⟩
  · intro h
    obtain ⟨policy', hload', rfl⟩ := h
    obtain ⟨policy, hload, hpolicy⟩ := load_reordered (fun bytes => (hslice bytes).symm) hload'
    exact ⟨policy, hload, validateCommand_reordered hpolicy⟩

/-! ## The installation -/

variable {m : Machine} {paths : InstallPaths} {publicKeyPath : Str}

theorem loadVerified_reordered (h : ∀ bytes, ReadAlike (m.fromSlice bytes) (fromSlice bytes))
    (hload : loadPolicyWithVerifiedSignature (m.host st) st.tree path pubkeyPath = .ok policy) : ∃ policy',
      loadPolicyWithVerifiedSignature (({ m with fromSlice } : Machine).host st) st.tree path pubkeyPath = .ok policy' ∧
        policy.Reordered policy' := by
  obtain ⟨bytes, parsed, hread, hverify, hparsed, hvalid⟩ := loadPolicyWithVerifiedSignature_ok.mp hload
  have halike := h bytes
  have hparsed : m.fromSlice bytes = .ok parsed := hparsed
  rw [hparsed] at halike
  generalize hparsed' : fromSlice bytes = parsed' at halike
  cases halike with
  | ok hreordered =>
    obtain ⟨valid', hvalid', hpolicy⟩ := validate_reordered hreordered hvalid
    exact ⟨valid', loadPolicyWithVerifiedSignature_ok.mpr ⟨bytes, _, hread, hverify, hparsed', hvalid'⟩, hpolicy⟩

/-- **An installation does the same in every order**: where the policy is loaded it
leaves the same files and says the same of them, and where not it changes nothing. -/
theorem install_reordered (h : ∀ bytes, ReadAlike (m.fromSlice bytes) (fromSlice bytes)) :
    (∀ policy, loadPolicyWithVerifiedSignature (m.host st) st.tree paths.policyPath pubkeyPath = .ok policy →
      st.installWithPathsAndPubkey { m with fromSlice } paths pubkeyPath =
        st.installWithPathsAndPubkey m paths pubkeyPath) ∧
    ∀ e, loadPolicyWithVerifiedSignature (m.host st) st.tree paths.policyPath pubkeyPath = .error e →
      ∃ e', st.installWithPathsAndPubkey m paths pubkeyPath = (.error e, st) ∧
        st.installWithPathsAndPubkey { m with fromSlice } paths pubkeyPath = (.error e', st) := by
  unfold Storage.installWithPathsAndPubkey
  constructor
  · intro policy hload
    obtain ⟨policy', hload', hpolicy⟩ := loadVerified_reordered h hload
    rw [hload, hload']
    dsimp only
    rw [mergeSort_perm hpolicy.keys]
    rfl
  · intro e hload
    rw [hload]
    cases hload' : loadPolicyWithVerifiedSignature (({ m with fromSlice } : Machine).host st) st.tree paths.policyPath
        pubkeyPath with
    | ok policy' =>
      obtain ⟨policy, hback, -⟩ := @loadVerified_reordered _ _ _ _ _ { m with fromSlice } (fun bytes => (h bytes).symm) hload'
      cases hload.symm.trans hback
    | error e' => exact ⟨e', rfl, rfl⟩

/-! ## A policy with two tools -/

theorem ok_of_toOption {ε α : Type} {x : Except ε α} {a : α} (h : x.toOption = some a) : x = .ok a := by
  cases x <;> cases h
  rfl

/-- Another order of the tools is one. -/
theorem reordered_of_perm {tools : HashMap ToolPolicy} (h : policy.tools.entries.Perm tools.entries) :
    policy.Reordered { policy with tools } where
  rest := rfl
  tools name := by
    have hget : tools.get name = policy.tools.get name := (HashMap.get_perm h name).symm
    show Option.Rel _ _ (tools.get name)
    rw [hget]
    cases policy.tools.get name with
    | none => exact .none
    | some tool => exact .some ⟨rfl, fun _ => rfl⟩

def pairText : Str :=
  "\x7b\"version\":\"1.0\",\"serial\":8,\"global_settings\":\x7b\"blocked_paths\":[]\x7d,\"tools\":".toList ++
    "\x7b\"apt\":\x7b\"real_binary\":\"/usr/bin/apt\",\"help_description\":\"apt\"\x7d,".toList ++
    "\"ls\":\x7b\"real_binary\":\"/usr/bin/ls\",\"help_description\":\"ls\"\x7d\x7d\x7d".toList

def pairEntries : List (Str × ToolPolicy) :=
  [("apt", { realBinary := "/usr/bin/apt", helpDescription := "apt" }),
    ("ls", { realBinary := "/usr/bin/ls", helpDescription := "ls" })]

theorem pairEntries_nodup : (pairEntries.map Prod.fst).Nodup := by decide

theorem pairEntries_reverse_nodup : (pairEntries.reverse.map Prod.fst).Nodup := by decide

def pairTools : HashMap ToolPolicy := ⟨pairEntries, pairEntries_nodup⟩

def pairToolsReversed : HashMap ToolPolicy := ⟨pairEntries.reverse, pairEntries_reverse_nodup⟩

def pairPolicy (tools : HashMap ToolPolicy) : SecureSudoersPolicy where
  serial := 8
  globalSettings := { blockedPaths := [] }
  tools

/-- `serde_json::from_slice`, with the tools in this order. -/
def pairSlice (tools : HashMap ToolPolicy) (bytes : Bytes) : Except Str SecureSudoersPolicy :=
  if bytes = Utf8.encode pairText then .ok (pairPolicy tools) else .error "expected value at line 1 column 1"

/-- `serde_json::from_str`. -/
def pairStr (tools : HashMap ToolPolicy) (content : Str) : Except Str SecureSudoersPolicy :=
  pairSlice tools (Utf8.encode content)

theorem pairSlice_alike {bytes : Bytes} : ReadAlike (pairSlice pairTools bytes) (pairSlice pairToolsReversed bytes) := by
  unfold pairSlice
  split
  · exact .ok (reordered_of_perm pairEntries.reverse_perm.symm)
  · exact .error

/-- The files of `etcManaged` with this policy. -/
def pairStorage : Storage :=
  { etcManaged with
    content := fun inode =>
      if inode.ino = 1 then Utf8.encode pairText
      else if inode.ino = 2 then policyScheme.sign signingKey (Utf8.encode pairText)
      else etcManaged.content inode }

def pairHost (tools : HashMap ToolPolicy) : SigningHost := { policyHost none with fromSlice := pairSlice tools }

def pairMachine (tools : HashMap ToolPolicy) : Machine := { etcMachine with fromSlice := pairSlice tools }

/-- `ls` without arguments, where each path is that of a file. -/
def runLs (policy : SecureSudoersPolicy) : Except ValidationDenial (ValidationResult Unit) :=
  validateCommand (fun arg _ _ => .ok ⟨arg, ()⟩) defaultRegexNew policy "ls" []

def lsResult : ValidationResult Unit where
  command := { binary := ⟨"/usr/bin/ls", ()⟩, args := [], isolation := {}, envWhitelist := defaultCommonEnvWhitelist }
  ruleId := "ls"

/-- `ls` is run in the other order, too. -/
theorem decision_reordered_ls : ∃ policy,
    (pairHost pairToolsReversed).loadPolicyWithPubkey pairStorage POLICY_PATH PUBLIC_KEY_PATH = .ok policy ∧
      runLs policy = .ok lsResult := by
  have hload : ((pairHost pairTools).loadPolicyWithPubkey pairStorage POLICY_PATH PUBLIC_KEY_PATH).toOption.map runLs =
      some (.ok lsResult) := by decide +kernel
  obtain ⟨policy, hpolicy, hdecided⟩ := Option.map_eq_some_iff.mp hload
  have hstr : ∀ content, ReadAlike (pairStr pairTools content) (pairStr pairToolsReversed content) :=
    fun _ => pairSlice_alike
  have hboth := @decision_reordered Unit defaultRegexNew "ls" (pairHost pairTools) (pairSlice pairToolsReversed)
    (pairStr pairTools) (pairStr pairToolsReversed) pairStorage POLICY_PATH PUBLIC_KEY_PATH
    (fun arg _ _ => .ok ⟨arg, ()⟩) [] (.ok lsResult) (fun _ => pairSlice_alike) hstr
  exact hboth.1.mp ⟨policy, ok_of_toOption hpolicy, hdecided⟩

/-- Both tools are installed in the other order, too. -/
theorem install_reordered_pair : ∃ policy,
    loadPolicyWithVerifiedSignature ((pairMachine pairTools).host pairStorage) pairStorage.tree POLICY_PATH PUBLIC_KEY_PATH =
      .ok policy ∧ policy.tools.keys = ["apt".toList, "ls".toList] ∧
        pairStorage.installWithPathsAndPubkey (pairMachine pairToolsReversed) {} PUBLIC_KEY_PATH =
          pairStorage.installWithPathsAndPubkey (pairMachine pairTools) {} PUBLIC_KEY_PATH := by
  have hload : (loadPolicyWithVerifiedSignature ((pairMachine pairTools).host pairStorage) pairStorage.tree POLICY_PATH
      PUBLIC_KEY_PATH).toOption.map (·.tools.keys) = some ["apt".toList, "ls".toList] := by decide +kernel
  obtain ⟨policy, hpolicy, hkeys⟩ := Option.map_eq_some_iff.mp hload
  have hloaded := ok_of_toOption hpolicy
  have hboth := @install_reordered (pairSlice pairToolsReversed) pairStorage PUBLIC_KEY_PATH (pairMachine pairTools) {}
    fun _ => pairSlice_alike
  exact ⟨policy, hloaded, hkeys, hboth.1 policy hloaded⟩

end SecureSudoers
