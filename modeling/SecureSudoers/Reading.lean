/-
How the validator reads a command line. An `Item` is one flag, cluster,
positional or delimiter together with the part of the tokens that is its value;
`readArgs` splits the tokens into items by the declared parameters alone, and
`Emits` says what an accepted item puts into the command.

`parseArgs_reads`: what validation accepts, it has read as `readArgs` reads it,
and it emits what the items emit, in order.
-/
import SecureSudoers.Validator

namespace SecureSudoers

variable {D : Type}

inductive Item where
  /-- A declared Bool, as a token of its own. -/
  | flag (name : Str)
  /-- `name=value`. -/
  | equals (name value : Str)
  /-- A declared flag, its value in the next token. -/
  | separate (name value : Str)
  /-- `-abc`, all Bools. -/
  | cluster (seen : List Char)
  /-- `-abf` whose last flag takes the next token. -/
  | clusterSeparate (seen : List Char) (c : Char) (value : Str)
  /-- `-abfvalue`. -/
  | attached (seen : List Char) (c : Char) (value : Str)
  /-- `-ab=` where `-=` is declared and takes a value: it is looked up as `-` with an empty one. -/
  | trailingEq (seen : List Char)
  | delimiter
  | positional (context : ValidationContext) (raw : Str)
  deriving DecidableEq, Repr

/-- The tokens an item is read from. -/
def Item.tokens : Item → List Str
  | .flag name => [name]
  | .equals name value => [name ++ '=' :: value]
  | .separate name value => [name, value]
  | .cluster seen => ['-' :: seen]
  | .clusterSeparate seen c value => ['-' :: (seen ++ [c]), value]
  | .attached seen c value => ['-' :: (seen ++ c :: value)]
  | .trailingEq seen => ['-' :: (seen ++ ['='])]
  | .delimiter => [['-', '-']]
  | .positional _ raw => [raw]

/-- A token's short flags after those already seen. -/
def readCluster (parameters : HashMap ParameterConfig) (seen : List Char) :
    List Char → List Str → Option (Item × List Str)
  | [], iter => some (.cluster seen, iter)
  | c :: chars, iter =>
    match parameters.get ['-', c] with
    | none => none
    | some config =>
      if config.paramType = .bool then readCluster parameters (seen ++ [c]) chars iter
      else if chars ≠ [] then some (.attached seen c chars, iter)
      else if c = '=' then some (.trailingEq seen, iter)
      else match iter with
        | value :: iter => some (.clusterSeparate seen c value, iter)
        | [] => none

/-- A token that starts with `-`: as one flag, else as a cluster. -/
def readFlag (parameters : HashMap ParameterConfig) (arg : Str) (iter : List Str) : Option (Item × List Str) :=
  match splitFlag arg none with
  | (name, provided) =>
    match parameters.get name with
    | none => if Str.startsWith arg "--" then none else readCluster parameters [] (arg.drop 1) iter
    | some config =>
      match config.paramType, provided, iter with
      | .bool, none, iter => some (.flag name, iter)
      | .bool, some _, _ => none
      | _, some value, iter => some (.equals name value, iter)
      | _, none, value :: iter => some (.separate name value, iter)
      | _, none, [] => none

/-- The items one argument begins, and what is left of the tokens. -/
def readArg (parameters : HashMap ParameterConfig) (arg : Str) (iter : List Str) : Option (List Item × List Str) :=
  if arg = ['-', '-'] then some (.delimiter :: iter.map (.positional .delimitedPositional), [])
  else if Str.startsWith arg "-" && 1 < Str.len arg then
    (readFlag parameters arg iter).map fun (item, iter) => ([item], iter)
  else some ([.positional .positional arg], iter)

def readArgsN (parameters : HashMap ParameterConfig) : Nat → List Str → Option (List Item)
  | _, [] => some []
  | 0, _ :: _ => none
  | fuel + 1, arg :: iter => do
    let (items, iter) ← readArg parameters arg iter
    let rest ← readArgsN parameters fuel iter
    some (items ++ rest)

/-- The items of the tokens after the verb. -/
def readArgs (parameters : HashMap ParameterConfig) (iter : List Str) : Option (List Item) :=
  readArgsN parameters iter.length iter

/-! ## What an item emits -/

/-- A value flag's name and checked value. -/
inductive Valued (cmd : CommandParams D) (name value : Str) : List (ValidatedArg D) → Prop where
  | string {config : ParameterConfig} : cmd.tool.parameters.get name = some config → config.paramType = .string →
      config.admits value = true → Valued cmd name value [.string name, .string value]
  | path {config : ParameterConfig} {p : SecurePath D} : cmd.tool.parameters.get name = some config →
      config.paramType = .path → cmd.check value (.flag name) cmd.blockedPaths = .ok p →
      config.admits p.path = true → Valued cmd name value [.string name, .path p]

/-- A checked positional. -/
inductive Positional (cmd : CommandParams D) (context : ValidationContext) (raw : Str) : List (ValidatedArg D) → Prop where
  | path {config : ParameterConfig} {p : SecurePath D} : cmd.safeRe.isMatch raw = true →
      cmd.tool.positional = some config → config.paramType = .path →
      cmd.check raw context cmd.blockedPaths = .ok p → config.admits p.path = true →
      Positional cmd context raw [.path p]
  | plain : cmd.safeRe.isMatch raw = true →
      (∀ config, cmd.tool.positional = some config → config.paramType ≠ .path ∧ config.admits raw = true) →
      (Str.startsWith raw "-" = true → raw = ['-']) → Positional cmd context raw [.string raw]

/-- `-c` is a declared Bool. -/
def IsBoolFlag (cmd : CommandParams D) (name : Str) : Prop :=
  ∃ config, cmd.tool.parameters.get name = some config ∧ config.paramType = .bool

/-- The short flags of a cluster, each emitted on its own. -/
def shortFlags (seen : List Char) : List (ValidatedArg D) := seen.map fun c => .string ['-', c]

/-- What an accepted item puts into the command. -/
inductive Emits (cmd : CommandParams D) : Item → List (ValidatedArg D) → Prop where
  | flag {name : Str} : IsBoolFlag cmd name → Emits cmd (.flag name) [.string name]
  | equals {name value : Str} {u : List (ValidatedArg D)} :
      Valued cmd name value u → Emits cmd (.equals name value) u
  | separate {name value : Str} {u : List (ValidatedArg D)} :
      Valued cmd name value u → Emits cmd (.separate name value) u
  | cluster {seen : List Char} : (∀ c ∈ seen, IsBoolFlag cmd ['-', c]) → Emits cmd (.cluster seen) (shortFlags seen)
  | clusterSeparate {seen : List Char} {c : Char} {value : Str} {u : List (ValidatedArg D)} :
      (∀ c ∈ seen, IsBoolFlag cmd ['-', c]) → Valued cmd ['-', c] value u →
      Emits cmd (.clusterSeparate seen c value) (shortFlags seen ++ u)
  | attached {seen : List Char} {c : Char} {value : Str} {u : List (ValidatedArg D)} :
      (∀ c ∈ seen, IsBoolFlag cmd ['-', c]) → Valued cmd ['-', c] value u →
      Emits cmd (.attached seen c value) (shortFlags seen ++ u)
  | trailingEq {seen : List Char} {u : List (ValidatedArg D)} :
      (∀ c ∈ seen, IsBoolFlag cmd ['-', c]) → u = [] ∨ Valued cmd ['-'] [] u →
      Emits cmd (.trailingEq seen) (shortFlags seen ++ u)
  | delimiter : Emits cmd .delimiter []
  | positional {context : ValidationContext} {raw : Str} {u : List (ValidatedArg D)} :
      Positional cmd context raw u → Emits cmd (.positional context raw) u

/-! ## One function at a time -/

/-- The two checks every value goes through, in the source's order. -/
theorem admits_checks {α : Type} {config : ParameterConfig} {val : Str} {e₁ e₂ : Error} {x : Except Error α} {a : α} :
    (if config.isExplicitlyDisallowed val then .error e₁
      else if !config.matchesAllowedOrRegex val then .error e₂ else x) = .ok a ↔
      config.admits val = true ∧ x = .ok a := by
  unfold ParameterConfig.admits
  cases config.isExplicitlyDisallowed val <;> cases config.matchesAllowedOrRegex val <;> simp

theorem pushStringFlagValue_ok {params : ValidationParams D} {name val : Str} {config : ParameterConfig}
    {out out' : List (ValidatedArg D)} : pushStringFlagValue params name val config out = .ok out' ↔
      config.admits val = true ∧ out ++ [.string name, .string val] = out' := by
  unfold pushStringFlagValue
  rw [admits_checks, Except.ok.injEq]

theorem validatePathValue_ok {check : PathCheck D} {raw : Str} {config : ParameterConfig} {context : ValidationContext}
    {blockedPaths : List Str} {m₁ m₂ : Str → Bool → Str} {p : SecurePath D} :
    validatePathValue check raw config context blockedPaths m₁ m₂ = .ok p ↔
      check raw context blockedPaths = .ok p ∧ config.admits p.path = true := by
  unfold validatePathValue
  cases check raw context blockedPaths with
  | error e => exact iff_of_false nofun fun h => nomatch h.1
  | ok q =>
    simp only [admits_checks, Except.ok.injEq]
    exact ⟨fun ⟨h, he⟩ => ⟨he, he ▸ h⟩, fun ⟨he, h⟩ => ⟨he ▸ h, he⟩⟩

theorem pushPathFlagValue_ok {params : ValidationParams D} {name val : Str} {config : ParameterConfig}
    {out out' : List (ValidatedArg D)} : pushPathFlagValue params name val config out = .ok out' ↔
      ∃ p, (params.check val (.flag name) params.blockedPaths = .ok p ∧ config.admits p.path = true) ∧
        out ++ [.string name, .path p] = out' := by
  unfold pushPathFlagValue
  rw [bind_ok]
  simp only [validatePathValue_ok, Except.ok.injEq]

theorem takeFlagValue_ok {name val : Str} {provided : Option Str} {iter iter' : List Str} :
    takeFlagValue name provided iter = .ok (val, iter') ↔
      (provided = some val ∧ iter' = iter) ∨ (provided = none ∧ iter = val :: iter') := by
  unfold takeFlagValue
  cases provided with
  | some v => simp [eq_comm]
  | none =>
    cases iter with
    | nil => exact iff_of_false nofun fun h => by simp at h
    | cons v iter => simp [eq_comm]

/-- A declared flag: a Bool without a value, or a checked value. -/
theorem flagWithValue_some {cmd : CommandParams D} {flag : Str} {attachedValue : Option Str} {iter iter' : List Str}
    {out out' : List (ValidatedArg D)}
    (h : flagWithValue cmd.flags flag attachedValue iter out = .ok (some (iter', out'))) :
    ∃ config u, cmd.tool.parameters.get (splitFlag flag attachedValue).1 = some config ∧ out' = out ++ u ∧
      ((config.paramType = .bool ∧ (splitFlag flag attachedValue).2 = none ∧ iter' = iter ∧
          u = [.string (splitFlag flag attachedValue).1]) ∨
        (config.paramType ≠ .bool ∧ ∃ val, takeFlagValue (splitFlag flag attachedValue).1
            (splitFlag flag attachedValue).2 iter = .ok (val, iter') ∧
          Valued cmd (splitFlag flag attachedValue).1 val u)) := by
  revert h
  unfold flagWithValue
  obtain ⟨name, provided⟩ := splitFlag flag attachedValue
  intro h
  simp only [CommandParams.flags] at h ⊢
  cases hg : cmd.tool.parameters.get name with
  | none => simp [hg] at h
  | some config =>
    simp only [hg] at h
    cases ht : config.paramType with
    | bool =>
      simp only [ht] at h
      cases provided with
      | some v => simp at h
      | none =>
        simp only [Option.isSome_none, Bool.false_eq_true, if_false, Except.ok.injEq, Option.some.injEq,
          Prod.mk.injEq] at h
        exact ⟨config, _, rfl, h.2.symm, .inl ⟨ht, rfl, h.1.symm, rfl⟩⟩
    | string =>
      simp only [ht, bind_ok, pushStringFlagValue_ok, Except.ok.injEq, Option.some.injEq, Prod.mk.injEq] at h
      obtain ⟨⟨val, iter₁⟩, htake, out₁, ⟨hadm, rfl⟩, rfl, rfl⟩ := h
      exact ⟨config, _, rfl, rfl, .inr ⟨by rw [ht]; decide, val, htake, .string hg ht hadm⟩⟩
    | path =>
      simp only [ht, bind_ok, pushPathFlagValue_ok, Except.ok.injEq, Option.some.injEq, Prod.mk.injEq] at h
      obtain ⟨⟨val, iter₁⟩, htake, out₁, ⟨p, ⟨hchk, hadm⟩, rfl⟩, rfl, rfl⟩ := h
      exact ⟨config, _, rfl, rfl, .inr ⟨by rw [ht]; decide, val, htake, .path hg ht hchk hadm⟩⟩

theorem flagWithValue_none {cmd : CommandParams D} {flag : Str} {attachedValue : Option Str} {iter : List Str}
    {out : List (ValidatedArg D)} (h : flagWithValue cmd.flags flag attachedValue iter out = .ok none) :
    cmd.tool.parameters.get (splitFlag flag attachedValue).1 = none := by
  revert h
  unfold flagWithValue
  obtain ⟨name, provided⟩ := splitFlag flag attachedValue
  intro h
  simp only [CommandParams.flags] at h ⊢
  cases hg : cmd.tool.parameters.get name with
  | none => rfl
  | some config =>
    simp only [hg] at h
    cases ht : config.paramType <;> simp only [ht, bind_ok] at h
    · split at h <;> cases h
    · obtain ⟨_, _, _, _, hf⟩ := h
      cases hf
    · obtain ⟨_, _, _, _, hf⟩ := h
      cases hf

/-- A flag's token is its name, with its value after `=` where it has one. -/
theorem splitFlag_token {flag : Str} :
    flag = match splitFlag flag none with
      | (name, some value) => name ++ '=' :: value
      | (name, none) => name := by
  unfold splitFlag
  cases hs : Str.splitOnce '=' flag with
  | none => rfl
  | some ab => exact (splitOnce_some hs).1

/-! ## One argument -/

variable {cmd : CommandParams D} {iter iter' : List Str} {out out' : List (ValidatedArg D)}

theorem shortFlags_snoc {seen : List Char} {c : Char} :
    (shortFlags (seen ++ [c]) : List (ValidatedArg D)) = shortFlags seen ++ [.string ['-', c]] := by
  simp [shortFlags]

/-- The value flag `-c` of a cluster, where something follows it in the token. -/
theorem flagWithValue_attached {c : Char} {chars : List Char} {config : ParameterConfig}
    {done : Option (List Str × List (ValidatedArg D))} (hg : cmd.tool.parameters.get ['-', c] = some config)
    (h : flagWithValue cmd.flags ['-', c] (some chars) iter out = .ok done) (ht : config.paramType ≠ .bool) :
    ∃ u, done = some (iter, out ++ u) ∧ Valued cmd ['-', c] chars u := by
  cases done with
  | none =>
    have := flagWithValue_none h
    simp only [splitFlag, hg] at this
    cases this
  | some r =>
    obtain ⟨config', u, hg', hout, hcase⟩ := @flagWithValue_some _ _ _ _ _ r.1 _ r.2 h
    simp only [splitFlag, hg, Option.some.injEq] at hg' hcase
    subst hg'
    obtain ⟨hb, -⟩ | ⟨-, val, htake, hv⟩ := hcase
    · exact absurd hb ht
    · obtain ⟨hval, hi⟩ | ⟨hval, -⟩ := takeFlagValue_ok.mp htake
      · cases hval
        exact ⟨u, by rw [← hi, ← hout], hv⟩
      · cases hval

theorem splitFlag_short {c : Char} (hc : c ≠ '=') : splitFlag ['-', c] none = (['-', c], none) := by
  have : Str.splitOnce '=' ['-', c] = none := splitOnce_none.mpr (by simp [Ne.symm hc])
  simp [splitFlag, this]

/-- The value flag `-c` at the end of a cluster. -/
theorem flagWithValue_last {c : Char} {config : ParameterConfig}
    {done : Option (List Str × List (ValidatedArg D))} (hg : cmd.tool.parameters.get ['-', c] = some config)
    (h : flagWithValue cmd.flags ['-', c] none iter out = .ok done) (ht : config.paramType ≠ .bool) :
    (c = '=' ∧ ∃ u, done.getD (iter, out) = (iter, out ++ u) ∧ (u = [] ∨ Valued cmd ['-'] [] u)) ∨
      (c ≠ '=' ∧ ∃ value iter' u, iter = value :: iter' ∧ done = some (iter', out ++ u) ∧
        Valued cmd ['-', c] value u) := by
  by_cases hc : c = '='
  · subst hc
    refine .inl ⟨rfl, ?_⟩
    have hsplit : splitFlag ['-', '='] none = (['-'], some []) := by decide
    cases done with
    | none => exact ⟨[], by simp, .inl rfl⟩
    | some r =>
      obtain ⟨config', u, hg', hout, hcase⟩ := @flagWithValue_some _ _ _ _ _ r.1 _ r.2 h
      simp only [hsplit] at hg' hcase
      obtain ⟨-, hnone, -⟩ | ⟨-, val, htake, hv⟩ := hcase
      · cases hnone
      · obtain ⟨hval, hi⟩ | ⟨hval, -⟩ := takeFlagValue_ok.mp htake
        · cases hval
          exact ⟨u, by rw [Option.getD_some, ← hi, ← hout], .inr hv⟩
        · cases hval
  · refine .inr ⟨hc, ?_⟩
    have hsplit := splitFlag_short hc
    cases done with
    | none =>
      have := flagWithValue_none h
      rw [hsplit, hg] at this
      cases this
    | some r =>
      obtain ⟨config', u, hg', hout, hcase⟩ := @flagWithValue_some _ _ _ _ _ r.1 _ r.2 h
      simp only [hsplit, hg, Option.some.injEq] at hg' hcase
      subst hg'
      obtain ⟨hb, -⟩ | ⟨-, val, htake, hv⟩ := hcase
      · exact absurd hb ht
      · obtain ⟨hval, -⟩ | ⟨-, hi⟩ := takeFlagValue_ok.mp htake
        · cases hval
        · exact ⟨val, r.1, u, hi, by rw [← hout], hv⟩

/-- A cluster is read from where it stands, and emits its flags after those already emitted. -/
theorem clusterFlags_reads {out₀ : List (ValidatedArg D)} : ∀ {chars seen : List Char},
    (∀ c ∈ seen, IsBoolFlag cmd ['-', c]) →
    clusterFlags cmd.flags chars iter (out₀ ++ shortFlags seen) = .ok (iter', out') →
    ∃ item u, readCluster cmd.tool.parameters seen chars iter = some (item, iter') ∧ Emits cmd item u ∧
      out' = out₀ ++ u ∧ ('-' :: (seen ++ chars)) :: iter = item.tokens ++ iter'
  | [], seen, hseen, h => by
    simp only [clusterFlags, Except.ok.injEq, Prod.mk.injEq] at h
    obtain ⟨rfl, rfl⟩ := h
    exact ⟨.cluster seen, _, rfl, .cluster hseen, rfl, by rw [List.append_nil]; rfl⟩
  | c :: chars, seen, hseen, h => by
    unfold clusterFlags at h
    unfold readCluster
    simp only [CommandParams.flags] at h
    cases hg : cmd.tool.parameters.get ['-', c] with
    | none =>
      rw [hg] at h
      cases h
    | some config =>
      simp only [hg] at h ⊢
      by_cases ht : config.paramType = .bool
      · rw [if_pos ht]
        rw [if_neg (not_not_intro ht), List.append_assoc, ← shortFlags_snoc] at h
        have hseen' : ∀ d ∈ seen ++ [c], IsBoolFlag cmd ['-', d] := by
          intro d hd
          rcases List.mem_append.mp hd with hd | hd
          · exact hseen d hd
          · cases List.mem_singleton.mp hd
            exact ⟨config, hg, ht⟩
        obtain ⟨item, u, hr, he, ho, htok⟩ := clusterFlags_reads hseen' h
        refine ⟨item, u, hr, he, ho, ?_⟩
        rw [← htok, List.append_assoc, List.singleton_append]
      · rw [if_neg ht]
        rw [if_pos ht] at h
        obtain ⟨done, hf, hd⟩ := bind_ok.mp h
        simp only [Except.ok.injEq] at hd
        by_cases hchars : chars = []
        · subst hchars
          rw [if_neg (not_not_intro rfl)]
          rw [if_pos rfl] at hf
          obtain ⟨rfl, u, hdone, hu⟩ | ⟨hc, value, iter₁, u, rfl, rfl, hu⟩ := flagWithValue_last hg hf ht
          · rw [hdone] at hd
            cases hd
            exact ⟨_, _, if_pos rfl, .trailingEq hseen hu, List.append_assoc .., rfl⟩
          · cases hd
            exact ⟨_, _, if_neg hc, .clusterSeparate hseen hu, List.append_assoc .., rfl⟩
        · rw [if_pos hchars]
          rw [if_neg hchars] at hf
          obtain ⟨u, rfl, hu⟩ := flagWithValue_attached hg hf ht
          cases hd
          exact ⟨_, _, rfl, .attached hseen hu, List.append_assoc .., rfl⟩

/-- A flag's whole token. -/
theorem flagWithValue_reads {arg : Str} (h : flagWithValue cmd.flags arg none iter out = .ok (some (iter', out'))) :
    ∃ item u, readFlag cmd.tool.parameters arg iter = some (item, iter') ∧ Emits cmd item u ∧ out' = out ++ u ∧
      arg :: iter = item.tokens ++ iter' := by
  obtain ⟨config, u, hg, hout, hcase⟩ := flagWithValue_some h
  have htok := @splitFlag_token arg
  unfold readFlag
  revert htok hg hcase
  obtain ⟨name, provided⟩ := splitFlag arg none
  intro hg hcase htok
  simp only at htok hg hcase ⊢
  simp only [hg]
  obtain ⟨ht, rfl, rfl, rfl⟩ | ⟨ht, val, htake, hv⟩ := hcase
  · simp only [ht]
    exact ⟨_, _, rfl, .flag ⟨config, hg, ht⟩, hout, by rw [htok]; rfl⟩
  · obtain ⟨rfl, rfl⟩ | ⟨rfl, rfl⟩ := takeFlagValue_ok.mp htake
    · cases hty : config.paramType with
      | bool => exact absurd hty ht
      | string | path => exact ⟨_, _, rfl, .equals hv, hout, by rw [htok]; rfl⟩
    · cases hty : config.paramType with
      | bool => exact absurd hty ht
      | string | path => exact ⟨_, _, rfl, .separate hv, hout, by rw [htok]; rfl⟩

theorem readFlag_undeclared {arg : Str} (h : flagWithValue cmd.flags arg none iter out = .ok none) :
    readFlag cmd.tool.parameters arg iter =
      if Str.startsWith arg "--" then none else readCluster cmd.tool.parameters [] (arg.drop 1) iter := by
  have hg := flagWithValue_none h
  unfold readFlag
  revert hg
  obtain ⟨name, provided⟩ := splitFlag arg none
  intro hg
  simp only at hg ⊢
  rw [hg]

theorem processLongFlag_reads {arg : Str} (h : processLongFlag cmd.flags arg iter out = .ok (iter', out')) :
    ∃ item u, readFlag cmd.tool.parameters arg iter = some (item, iter') ∧ Emits cmd item u ∧ out' = out ++ u ∧
      arg :: iter = item.tokens ++ iter' := by
  obtain ⟨done, hf, hd⟩ := bind_ok.mp h
  cases done with
  | none => cases hd
  | some r =>
    cases hd
    exact flagWithValue_reads hf

theorem processShortFlag_reads {arg : Str} (hs : Str.startsWith arg "-" = true)
    (hl : Str.startsWith arg "--" = false) (h : processShortFlag cmd.flags arg iter out = .ok (iter', out')) :
    ∃ item u, readFlag cmd.tool.parameters arg iter = some (item, iter') ∧ Emits cmd item u ∧ out' = out ++ u ∧
      arg :: iter = item.tokens ++ iter' := by
  obtain ⟨done, hf, hd⟩ := bind_ok.mp h
  cases done with
  | some r =>
    cases hd
    exact flagWithValue_reads hf
  | none =>
    obtain ⟨chars, rfl⟩ := startsWith_dash.mp hs
    rw [readFlag_undeclared hf, hl]
    have hd' : clusterFlags cmd.flags chars iter (out ++ shortFlags []) = .ok (iter', out') := by
      rw [shortFlags, List.map_nil, List.append_nil]
      exact hd
    exact clusterFlags_reads (by simp) hd'

theorem pushPlain_ok {params : PositionalParams D} {arg : Str}
    (h : pushPositional.pushPlain params arg out = .ok out') :
    (Str.startsWith arg "-" = true → arg = ['-']) ∧ out' = out ++ [.string arg] := by
  unfold pushPositional.pushPlain at h
  split at h
  · cases h
  · next hc =>
    cases h
    exact ⟨not_dash_longer.mp hc, rfl⟩

theorem pushPositional_ok {params : PositionalParams D} {arg : Str} (h : pushPositional params arg out = .ok out') :
    params.safeRe.isMatch arg = true ∧
      ((∃ config p, params.config = some config ∧ config.paramType = .path ∧
          params.check arg params.context params.blockedPaths = .ok p ∧ config.admits p.path = true ∧
          out' = out ++ [.path p]) ∨
        ((∀ config, params.config = some config → config.paramType ≠ .path ∧ config.admits arg = true) ∧
          (Str.startsWith arg "-" = true → arg = ['-']) ∧ out' = out ++ [.string arg])) := by
  unfold pushPositional at h
  extract_lets displayArg at h
  split at h
  · cases h
  · next hsafe =>
    refine ⟨by rwa [Bool.not_eq_true', Bool.not_eq_false] at hsafe, ?_⟩
    split at h
    · next config hc =>
      split at h
      · next ht =>
        obtain ⟨p, hp, ho⟩ := bind_ok.mp h
        obtain ⟨hchk, hadm⟩ := validatePathValue_ok.mp hp
        cases ho
        exact .inl ⟨config, p, hc, ht, hchk, hadm, rfl⟩
      · next ht =>
        obtain ⟨hadm, hplain⟩ := admits_checks.mp h
        refine .inr ⟨fun config' hc' => ?_, pushPlain_ok hplain⟩
        cases hc.symm.trans hc'
        exact ⟨ht, hadm⟩
    · next hc =>
      refine .inr ⟨fun config' hc' => ?_, pushPlain_ok h⟩
      cases hc.symm.trans hc'

theorem pushPositional_emits {context : ValidationContext} {arg : Str}
    (h : pushPositional (cmd.positionals context) arg out = .ok out') :
    ∃ u, Positional cmd context arg u ∧ out' = out ++ u := by
  obtain ⟨hsafe, ⟨config, p, hc, ht, hchk, hadm, rfl⟩ | ⟨hrules, hdash, rfl⟩⟩ := pushPositional_ok h
  · exact ⟨_, .path hsafe hc ht hchk hadm, rfl⟩
  · exact ⟨_, .plain hsafe hrules hdash, rfl⟩

theorem pushPositional_of {context : ValidationContext} {arg : Str} {u : List (ValidatedArg D)}
    (h : Positional cmd context arg u) : pushPositional (cmd.positionals context) arg out = .ok (out ++ u) := by
  have hchecked : (cmd.positionals context).safeRe.isMatch arg = true := by
    cases h with
    | path hsafe _ _ _ _ => exact hsafe
    | plain hsafe _ _ => exact hsafe
  unfold pushPositional
  extract_lets displayArg
  rw [hchecked, if_neg (by decide)]
  cases h with
  | @path config p _ hc ht hchk hadm =>
    rw [show (cmd.positionals context).config = some config from hc]
    refine (if_pos ht).trans (bind_ok.mpr ⟨p, ?_, rfl⟩)
    exact validatePathValue_ok.mpr ⟨hchk, hadm⟩
  | plain _ hrules hdash =>
    have hplain : pushPositional.pushPlain (cmd.positionals context) arg out = .ok (out ++ [.string arg]) := by
      rw [pushPositional.pushPlain, if_neg (not_dash_longer.mpr hdash)]
    cases hc : cmd.tool.positional with
    | none =>
      rw [show (cmd.positionals context).config = none from hc]
      exact hplain
    | some config =>
      rw [show (cmd.positionals context).config = some config from hc]
      obtain ⟨ht, hadm⟩ := hrules config hc
      exact (if_neg ht).trans (admits_checks.mpr ⟨hadm, hplain⟩)

theorem pushPositionals_emits {context : ValidationContext} : ∀ {args : List Str} {out : List (ValidatedArg D)},
    pushPositionals (cmd.positionals context) args out = .ok out' →
    ∃ chunks, List.Forall₂ (Emits cmd) (args.map (.positional context)) chunks ∧ out' = out ++ chunks.flatten
  | [], out, h => by
    cases h
    exact ⟨[], .nil, (List.append_nil _).symm⟩
  | arg :: rest, out, h => by
    obtain ⟨out₁, h₁, h₂⟩ := bind_ok.mp h
    obtain ⟨u, hu, rfl⟩ := pushPositional_emits h₁
    obtain ⟨chunks, hc, rfl⟩ := pushPositionals_emits h₂
    exact ⟨u :: chunks, .cons (.positional hu) hc, by rw [List.flatten_cons, List.append_assoc]⟩

theorem item_tokens_pos {item : Item} : 0 < item.tokens.length := by
  cases item <;> simp [Item.tokens]

/-- **One argument of the loop** is read as `readArg` reads it, and emits what the items emit. -/
theorem parseArg_reads {arg : Str} (h : parseArg cmd arg iter out = .ok (iter', out')) :
    ∃ items chunks, readArg cmd.tool.parameters arg iter = some (items, iter') ∧
      List.Forall₂ (Emits cmd) items chunks ∧ out' = out ++ chunks.flatten ∧ iter'.length ≤ iter.length := by
  unfold parseArg at h
  unfold readArg
  split at h
  · next hdd =>
    subst hdd
    obtain ⟨out₁, hp, he⟩ := map_ok.mp (mapError_ok.mp h)
    cases he
    obtain ⟨chunks, hc, rfl⟩ := pushPositionals_emits hp
    exact ⟨_, [] :: chunks, if_pos rfl, .cons .delimiter hc, rfl, Nat.zero_le _⟩
  · next hdd =>
    rw [if_neg hdd]
    have one : ∀ {item : Item} {u : List (ValidatedArg D)}, Emits cmd item u → out' = out ++ u →
        arg :: iter = item.tokens ++ iter' → List.Forall₂ (Emits cmd) [item] [u] ∧ out' = out ++ [u].flatten ∧
          iter'.length ≤ iter.length := by
      intro item u he ho ht
      refine ⟨.cons he .nil, by simpa using ho, ?_⟩
      have hlen := congrArg List.length ht
      have hpos := @item_tokens_pos item
      rw [List.length_cons, List.length_append] at hlen
      omega
    split at h
    · next hll =>
      obtain ⟨item, u, hr, he, ho, ht⟩ := processLongFlag_reads (mapError_ok.mp h)
      have hdash : Str.startsWith arg "-" = true := by
        obtain ⟨t, rfl⟩ := List.isPrefixOf_iff_prefix.mp hll
        exact startsWith_dash.mpr ⟨_, rfl⟩
      have hne : arg ≠ ['-'] := by
        rintro rfl
        exact absurd hll (by decide)
      rw [if_pos (dash_longer.mpr ⟨hdash, hne⟩), hr]
      exact ⟨[item], [u], rfl, one he ho ht⟩
    · next hll =>
      split at h
      · next hs =>
        rw [if_pos hs]
        obtain ⟨item, u, hr, he, ho, ht⟩ :=
          processShortFlag_reads (Bool.and_eq_true_iff.mp hs).1 (Bool.eq_false_iff.mpr hll) (mapError_ok.mp h)
        rw [hr]
        exact ⟨[item], [u], rfl, one he ho ht⟩
      · next hs =>
        rw [if_neg hs]
        obtain ⟨out₁, hp, he⟩ := map_ok.mp (mapError_ok.mp h)
        cases he
        obtain ⟨u, hu, ho⟩ := pushPositional_emits hp
        exact ⟨[_], [u], rfl, one (.positional hu) ho rfl⟩

theorem parseArgsN_reads : ∀ {fuel : Nat} {iter : List Str} {out : List (ValidatedArg D)}, iter.length ≤ fuel →
    parseArgsN cmd fuel iter out = .ok out' →
    ∃ items chunks, readArgsN cmd.tool.parameters fuel iter = some items ∧ List.Forall₂ (Emits cmd) items chunks ∧
      out' = out ++ chunks.flatten
  | fuel, [], out, _, h => by
    unfold parseArgsN at h
    cases h
    exact ⟨[], [], by unfold readArgsN; rfl, .nil, (List.append_nil _).symm⟩
  | 0, _ :: _, _, hf, _ => absurd hf (by simp)
  | fuel + 1, arg :: iter, out, hf, h => by
    obtain ⟨⟨iter₁, out₁⟩, h₁, h₂⟩ := bind_ok.mp h
    obtain ⟨items₁, chunks₁, hr₁, hc₁, rfl, hle⟩ := parseArg_reads h₁
    rw [List.length_cons] at hf
    obtain ⟨items₂, chunks₂, hr₂, hc₂, rfl⟩ := parseArgsN_reads (by omega) h₂
    refine ⟨items₁ ++ items₂, chunks₁ ++ chunks₂, ?_, List.rel_append hc₁ hc₂, ?_⟩
    · simp [readArgsN, hr₁, hr₂]
    · rw [List.flatten_append, List.append_assoc]

/-- **What validation accepts, it has read as `readArgs` reads it**, and what it
emits are the items' emissions in order. -/
theorem parseArgs_reads (h : parseArgs cmd iter out = .ok out') :
    ∃ items chunks, readArgs cmd.tool.parameters iter = some items ∧ List.Forall₂ (Emits cmd) items chunks ∧
      out' = out ++ chunks.flatten :=
  parseArgsN_reads (Nat.le_refl _) h

/-! ## The loop without its fuel -/

/-- Fuel for every argument is enough. -/
theorem parseArgsN_fuel : ∀ {n m : Nat} {iter : List Str} {out : List (ValidatedArg D)}, iter.length ≤ n →
    iter.length ≤ m → parseArgsN cmd n iter out = parseArgsN cmd m iter out
  | _, _, [], _, _, _ => by
    unfold parseArgsN
    rfl
  | 0, _, _ :: _, _, hn, _ => absurd hn (by simp)
  | _, 0, _ :: _, _, _, hm => absurd hm (by simp)
  | n + 1, m + 1, arg :: iter, out, hn, hm => by
    rw [List.length_cons] at hn hm
    unfold parseArgsN
    cases h : parseArg cmd arg iter out with
    | error e => rfl
    | ok r =>
      obtain ⟨iter', out'⟩ := r
      obtain ⟨_, _, -, -, -, hle⟩ := parseArg_reads h
      exact parseArgsN_fuel (by omega) (by omega)

theorem parseArgs_nil : parseArgs cmd [] out = .ok out := by
  unfold parseArgs parseArgsN
  rfl

/-- The loop takes one argument and goes on with what is left. -/
theorem parseArgs_cons {arg : Str} : parseArgs cmd (arg :: iter) out =
    (parseArg cmd arg iter out).bind fun (iter, out) => parseArgs cmd iter out := by
  show parseArgsN cmd (iter.length + 1) (arg :: iter) out = _
  unfold parseArgsN
  cases h : parseArg cmd arg iter out with
  | error e => rfl
  | ok r =>
    obtain ⟨iter', out'⟩ := r
    obtain ⟨_, _, -, -, -, hle⟩ := parseArg_reads h
    exact parseArgsN_fuel hle (Nat.le_refl _)

/-! ## The tokens of a reading -/

theorem readCluster_tokens {parameters : HashMap ParameterConfig} {item : Item} :
    ∀ {chars seen : List Char}, readCluster parameters seen chars iter = some (item, iter') →
      item.tokens ++ iter' = ('-' :: (seen ++ chars)) :: iter
  | [], seen, h => by
    cases h
    rw [List.append_nil]
    rfl
  | c :: chars, seen, h => by
    unfold readCluster at h
    split at h
    · cases h
    · split at h
      · rw [readCluster_tokens h, List.append_assoc, List.singleton_append]
      · split at h
        · cases h
          rfl
        · next hne =>
          cases Classical.not_not.mp hne
          split at h
          · next hc =>
            cases h
            rw [hc]
            rfl
          · split at h
            · cases h
              rfl
            · cases h

theorem readFlag_tokens {parameters : HashMap ParameterConfig} {arg : Str} {item : Item}
    (hs : Str.startsWith arg "-" = true) (h : readFlag parameters arg iter = some (item, iter')) :
    item.tokens ++ iter' = arg :: iter := by
  have htok := @splitFlag_token arg
  unfold readFlag at h
  revert htok h
  obtain ⟨name, provided⟩ := splitFlag arg none
  intro h htok
  simp only at h htok
  split at h
  · split at h
    · cases h
    · obtain ⟨cs, rfl⟩ := startsWith_dash.mp hs
      exact @readCluster_tokens _ _ parameters item cs [] h
  · split at h
    · cases h
      rw [htok]
      rfl
    · cases h
    · cases h
      rw [htok]
      rfl
    · cases h
      rw [htok]
      rfl
    · cases h

theorem readArg_tokens {parameters : HashMap ParameterConfig} {arg : Str} {items : List Item}
    (h : readArg parameters arg iter = some (items, iter')) : items.flatMap Item.tokens ++ iter' = arg :: iter := by
  unfold readArg at h
  split at h
  · next hd =>
    cases h
    rw [hd, List.flatMap_cons, List.flatMap_map]
    simp [Item.tokens]
  · split at h
    · next hs =>
      obtain ⟨⟨item, iter₁⟩, hf, he⟩ := Option.map_eq_some_iff.mp h
      cases he
      rw [List.flatMap_cons, List.flatMap_nil, List.append_nil]
      exact readFlag_tokens (Bool.and_eq_true_iff.mp hs).1 hf
    · cases h
      rfl

theorem readArgsN_tokens {parameters : HashMap ParameterConfig} : ∀ {fuel : Nat} {iter : List Str} {items : List Item},
    readArgsN parameters fuel iter = some items → items.flatMap Item.tokens = iter
  | _, [], items, h => by
    unfold readArgsN at h
    cases h
    rfl
  | 0, _ :: _, _, h => nomatch h
  | fuel + 1, arg :: iter, items, h => by
    obtain ⟨⟨items₁, iter₁⟩, h₁, h⟩ := Option.bind_eq_some_iff.mp h
    obtain ⟨items₂, h₂, h⟩ := Option.bind_eq_some_iff.mp h
    cases h
    rw [List.flatMap_append, readArgsN_tokens h₂, readArg_tokens h₁]

/-- A reading spells the tokens it was read from. -/
theorem readArgs_tokens {parameters : HashMap ParameterConfig} {items : List Item}
    (h : readArgs parameters iter = some items) : items.flatMap Item.tokens = iter :=
  readArgsN_tokens h

/-! ## Where an argument is due -/

/-- Is the last of a cluster's short flags one that takes a value, and the others Bools? -/
def clusterTakesNext (parameters : HashMap ParameterConfig) : List Char → Bool
  | [] => false
  | c :: chars =>
    match parameters.get ['-', c] with
    | none => false
    | some config =>
      if config.paramType = .bool then clusterTakesNext parameters chars else chars.isEmpty && c ≠ '='

/-- Does the token take the next one as its value? An undeclared flag does not. -/
def takesNext (parameters : HashMap ParameterConfig) (arg : Str) : Bool :=
  (Str.startsWith arg "-" && 1 < Str.len arg) && match splitFlag arg none with
    | (name, provided) =>
      match parameters.get name with
      | none => !Str.startsWith arg "--" && clusterTakesNext parameters (arg.drop 1)
      | some config => config.paramType ≠ .bool && provided.isNone

/-- After these arguments the next token is an argument: no value, and not after `--`. -/
def argumentDue (parameters : HashMap ParameterConfig) : List Str → Bool
  | [] => true
  | [arg] => arg ≠ ['-', '-'] && !takesNext parameters arg
  | arg :: value :: rest =>
    arg ≠ ['-', '-'] &&
      if takesNext parameters arg then argumentDue parameters rest else argumentDue parameters (value :: rest)

/-- After these tokens the next one is no verb and no value. -/
def flagDue (tool : ToolPolicy) (before : List Str) : Bool :=
  if tool.verbs = [] then argumentDue tool.parameters before
  else match before with
    | [] => false
    | _ :: rest => argumentDue tool.parameters rest

theorem readCluster_takesNext {parameters : HashMap ParameterConfig} {value : Str} {item : Item} :
    ∀ {chars seen : List Char}, readCluster parameters seen chars (value :: iter) = some (item, iter') →
      iter' = (value :: iter).drop (clusterTakesNext parameters chars).toNat
  | [], _, h => by
    cases h
    rfl
  | c :: chars, seen, h => by
    unfold readCluster at h
    unfold clusterTakesNext
    cases hg : parameters.get ['-', c] with
    | none =>
      simp only [hg] at h
      cases h
    | some config =>
      simp only [hg] at h ⊢
      by_cases ht : config.paramType = .bool
      · rw [if_pos ht] at h ⊢
        exact readCluster_takesNext h
      · rw [if_neg ht] at h ⊢
        cases chars with
        | cons d chars =>
          rw [if_pos (by simp)] at h
          cases h
          rfl
        | nil =>
          rw [if_neg (by simp)] at h
          by_cases hc : c = '='
          · rw [if_pos hc] at h
            cases h
            simp [hc]
          · rw [if_neg hc] at h
            cases h
            simp [hc]

/-- **A flag takes the next token where the validator reads it so.** -/
theorem readFlag_takesNext {parameters : HashMap ParameterConfig} {arg value : Str} {item : Item}
    (hdash : (Str.startsWith arg "-" && 1 < Str.len arg) = true)
    (h : readFlag parameters arg (value :: iter) = some (item, iter')) :
    iter' = (value :: iter).drop (takesNext parameters arg).toNat := by
  unfold readFlag at h
  unfold takesNext
  simp only [hdash, Bool.true_and]
  revert h
  obtain ⟨name, provided⟩ := splitFlag arg none
  intro h
  dsimp only at h ⊢
  cases hg : parameters.get name with
  | none =>
    simp only [hg] at h ⊢
    cases hl : Str.startsWith arg "--" with
    | true =>
      rw [hl, if_pos rfl] at h
      cases h
    | false =>
      rw [hl, if_neg Bool.false_ne_true] at h
      exact readCluster_takesNext h
  | some config =>
    simp only [hg] at h ⊢
    cases ht : config.paramType <;> cases provided <;> simp_all

/-- Does a declared flag take its value from the next token? -/
def valueDue (parameters : HashMap ParameterConfig) (flag : Str) (attachedValue : Option Str) : Bool :=
  match splitFlag flag attachedValue with
  | (name, provided) => (parameters.get name).any (·.paramType ≠ .bool) && provided.isNone

theorem takeFlagValue_taken {name : Str} {provided : Option Str} {taken : List Str}
    (h : taken.length = provided.isNone.toNat) :
    ∃ val, ∀ iter, takeFlagValue name provided (taken ++ iter) = .ok (val, iter) := by
  cases provided with
  | some val =>
    obtain rfl := List.length_eq_zero_iff.mp h
    exact ⟨val, fun _ => rfl⟩
  | none =>
    obtain ⟨val, rfl⟩ := List.length_eq_one_iff.mp h
    exact ⟨val, fun _ => rfl⟩

/-- A flag reads the token it takes, whatever comes after. -/
theorem flagWithValue_taken {flag : Str} {attachedValue : Option Str} {taken : List Str}
    (h : taken.length = (valueDue cmd.tool.parameters flag attachedValue).toNat) :
    flagWithValue cmd.flags flag attachedValue (taken ++ iter) out =
      (flagWithValue cmd.flags flag attachedValue taken out).map (·.map fun r => (iter, r.2)) := by
  have hparams : cmd.flags.parameters = cmd.tool.parameters := rfl
  unfold valueDue at h
  unfold flagWithValue
  revert h
  obtain ⟨name, provided⟩ := splitFlag flag attachedValue
  intro h
  dsimp only at h ⊢
  rw [hparams]
  cases hg : cmd.tool.parameters.get name with
  | none => rfl
  | some config =>
    simp only [hg, Option.any_some] at h ⊢
    cases ht : config.paramType with
    | bool => cases provided <;> simp_all [Except.map]
    | string | path =>
      simp only [ht] at h ⊢
      obtain ⟨val, hval⟩ := @takeFlagValue_taken name _ _ h
      have hnil := hval []
      rw [List.append_nil] at hnil
      rw [hval, hnil]
      simp only [bind, Except.bind]
      split <;> rfl

theorem valueDue_undeclared {parameters : HashMap ParameterConfig} {flag : Str} {attachedValue : Option Str}
    (h : parameters.get (splitFlag flag attachedValue).1 = none) : valueDue parameters flag attachedValue = false := by
  unfold valueDue
  simp [h]

/-- The value flag `-c` of a cluster takes the next token at the end of it, unless it is `-=`. -/
theorem valueDue_short {parameters : HashMap ParameterConfig} {c : Char} {chars : List Char} {config : ParameterConfig}
    (hg : parameters.get ['-', c] = some config) (ht : config.paramType ≠ .bool) :
    valueDue parameters ['-', c] (if chars = [] then none else some chars) = (chars.isEmpty && decide (c ≠ '=')) := by
  cases chars with
  | cons d chars => simp [valueDue, splitFlag]
  | nil =>
    by_cases hc : c = '='
    · have hsplit : splitFlag ['-', '='] none = (['-'], some []) := by decide
      simp [valueDue, hc, hsplit]
    · simp [valueDue, splitFlag_short hc, hg, ht, hc]

/-- A cluster reads the token it takes, whatever comes after. -/
theorem clusterFlags_taken {taken : List Str} : ∀ {chars : List Char} {out : List (ValidatedArg D)},
    taken.length = (clusterTakesNext cmd.tool.parameters chars).toNat →
    clusterFlags cmd.flags chars (taken ++ iter) out =
      (clusterFlags cmd.flags chars taken out).map fun r => (iter, r.2)
  | [], out, h => by
    obtain rfl := List.length_eq_zero_iff.mp h
    rfl
  | c :: chars, out, h => by
    have hparams : cmd.flags.parameters = cmd.tool.parameters := rfl
    unfold clusterTakesNext at h
    unfold clusterFlags
    dsimp only
    rw [hparams]
    cases hg : cmd.tool.parameters.get ['-', c] with
    | none => rfl
    | some config =>
      simp only [hg] at h ⊢
      by_cases ht : config.paramType = .bool
      · rw [if_pos ht] at h
        rw [if_neg (not_not_intro ht), if_neg (not_not_intro ht)]
        exact clusterFlags_taken h
      · rw [if_neg ht] at h
        rw [if_pos ht, if_pos ht]
        rw [← valueDue_short hg ht] at h
        rw [flagWithValue_taken h]
        cases hf : flagWithValue cmd.flags ['-', c] (if chars = [] then none else some chars) taken out with
        | error e => rfl
        | ok done =>
          cases done with
          | some r => rfl
          | none =>
            have hnone := flagWithValue_none hf
            rw [valueDue_undeclared hnone] at h
            obtain rfl := List.length_eq_zero_iff.mp h
            rfl

theorem flagWithValue_undeclared {flag : Str} {attachedValue : Option Str}
    (h : cmd.tool.parameters.get (splitFlag flag attachedValue).1 = none) :
    flagWithValue cmd.flags flag attachedValue iter out = .ok none := by
  have hparams : cmd.flags.parameters = cmd.tool.parameters := rfl
  unfold flagWithValue
  dsimp only
  rw [hparams, h]

/-- A token of a declared flag takes the value that is due. -/
theorem takesNext_declared {parameters : HashMap ParameterConfig} {arg : Str} {config : ParameterConfig}
    (hdash : (Str.startsWith arg "-" && 1 < Str.len arg) = true)
    (hg : parameters.get (splitFlag arg none).1 = some config) :
    takesNext parameters arg = valueDue parameters arg none := by
  unfold takesNext valueDue
  simp only [hdash, hg, Bool.true_and, Option.any_some]

theorem takesNext_undeclared {parameters : HashMap ParameterConfig} {arg : Str}
    (hdash : (Str.startsWith arg "-" && 1 < Str.len arg) = true) (hg : parameters.get (splitFlag arg none).1 = none) :
    takesNext parameters arg = (!Str.startsWith arg "--" && clusterTakesNext parameters (arg.drop 1)) := by
  unfold takesNext
  simp only [hdash, hg, Bool.true_and]

theorem processLongFlag_taken {arg : Str} {taken : List Str}
    (hdash : (Str.startsWith arg "-" && 1 < Str.len arg) = true)
    (h : taken.length = (takesNext cmd.tool.parameters arg).toNat) :
    processLongFlag cmd.flags arg (taken ++ iter) out =
      (processLongFlag cmd.flags arg taken out).map fun r => (iter, r.2) := by
  unfold processLongFlag
  cases hg : cmd.tool.parameters.get (splitFlag arg none).1 with
  | none =>
    rw [flagWithValue_undeclared hg, flagWithValue_undeclared hg]
    rfl
  | some config =>
    rw [takesNext_declared hdash hg] at h
    rw [flagWithValue_taken h]
    cases flagWithValue cmd.flags arg none taken out with
    | error e => rfl
    | ok done => cases done <;> rfl

theorem processShortFlag_taken {arg : Str} {taken : List Str}
    (hdash : (Str.startsWith arg "-" && 1 < Str.len arg) = true) (hlong : Str.startsWith arg "--" = false)
    (h : taken.length = (takesNext cmd.tool.parameters arg).toNat) :
    processShortFlag cmd.flags arg (taken ++ iter) out =
      (processShortFlag cmd.flags arg taken out).map fun r => (iter, r.2) := by
  unfold processShortFlag
  cases hg : cmd.tool.parameters.get (splitFlag arg none).1 with
  | none =>
    rw [takesNext_undeclared hdash hg, hlong, Bool.not_false, Bool.true_and] at h
    rw [flagWithValue_undeclared hg, flagWithValue_undeclared hg]
    exact clusterFlags_taken h
  | some config =>
    rw [takesNext_declared hdash hg] at h
    rw [flagWithValue_taken h]
    cases hf : flagWithValue cmd.flags arg none taken out with
    | error e => rfl
    | ok done =>
      cases done with
      | some r => rfl
      | none => cases hg.symm.trans (flagWithValue_none hf)

theorem map_mapError {ε ε' α β : Type} {f : α → β} {g : ε → ε'} {x : Except ε α} :
    (x.map f).mapError g = (x.mapError g).map f := by
  cases x <;> rfl

/-- **An argument reads the tokens it takes, whatever comes after.** -/
theorem parseArg_taken {arg : Str} {taken : List Str} (hne : arg ≠ ['-', '-'])
    (h : taken.length = (takesNext cmd.tool.parameters arg).toNat) :
    parseArg cmd arg (taken ++ iter) out = (parseArg cmd arg taken out).map fun r => (iter, r.2) := by
  unfold parseArg
  rw [if_neg hne, if_neg hne]
  by_cases hlong : Str.startsWith arg "--" = true
  · have hdash : (Str.startsWith arg "-" && 1 < Str.len arg) = true := by
      obtain ⟨t, rfl⟩ := List.isPrefixOf_iff_prefix.mp hlong
      refine dash_longer.mpr ⟨startsWith_dash.mpr ⟨_, rfl⟩, ?_⟩
      simp
    rw [if_pos hlong, if_pos hlong, processLongFlag_taken hdash h, map_mapError]
  · rw [if_neg hlong, if_neg hlong]
    by_cases hdash : (Str.startsWith arg "-" && 1 < Str.len arg) = true
    · rw [if_pos hdash, if_pos hdash, processShortFlag_taken hdash (Bool.eq_false_iff.mpr hlong) h, map_mapError]
    · have htakes : takesNext cmd.tool.parameters arg = false := by
        rw [takesNext, Bool.eq_false_iff.mpr hdash, Bool.false_and]
      rw [htakes] at h
      obtain rfl := List.length_eq_zero_iff.mp h
      rw [if_neg hdash, if_neg hdash]
      cases pushPositional (cmd.positionals .positional) arg out <;> rfl

theorem parseArgs_taken {arg : Str} {taken : List Str} (hne : arg ≠ ['-', '-'])
    (h : taken.length = (takesNext cmd.tool.parameters arg).toNat) :
    (∃ e, ∀ iter, parseArgs cmd (arg :: (taken ++ iter)) out = .error e) ∨
      ∃ out', ∀ iter, parseArgs cmd (arg :: (taken ++ iter)) out = parseArgs cmd iter out' := by
  simp only [parseArgs_cons, parseArg_taken hne h]
  cases parseArg cmd arg taken out with
  | error e => exact .inl ⟨e, fun _ => rfl⟩
  | ok r => exact .inr ⟨r.2, fun _ => rfl⟩

/-- **The loop comes to where an argument is due** whatever stands there, unless
the command is denied before. -/
theorem parseArgs_due : ∀ {before : List Str} {out : List (ValidatedArg D)},
    argumentDue cmd.tool.parameters before = true →
    (∃ e, ∀ iter, parseArgs cmd (before ++ iter) out = .error e) ∨
      ∃ out', ∀ iter, parseArgs cmd (before ++ iter) out = parseArgs cmd iter out'
  | [], out, _ => .inr ⟨out, fun _ => rfl⟩
  | [arg], out, h => by
    simp only [argumentDue, Bool.and_eq_true, decide_eq_true_eq, Bool.not_eq_true'] at h
    exact @parseArgs_taken _ _ out arg [] h.1 (by rw [h.2]; rfl)
  | arg :: value :: rest, out, h => by
    simp only [argumentDue, Bool.and_eq_true, decide_eq_true_eq] at h
    obtain ⟨hne, hrest⟩ := h
    cases htakes : takesNext cmd.tool.parameters arg with
    | true =>
      rw [htakes, if_pos rfl] at hrest
      obtain ⟨e, he⟩ | ⟨out₁, h₁⟩ := @parseArgs_taken _ _ out arg [value] hne (by rw [htakes]; rfl)
      · exact .inl ⟨e, fun iter => he (rest ++ iter)⟩
      · obtain ⟨e, he⟩ | ⟨out₂, h₂⟩ := @parseArgs_due rest out₁ hrest
        · exact .inl ⟨e, fun iter => (h₁ (rest ++ iter)).trans (he iter)⟩
        · exact .inr ⟨out₂, fun iter => (h₁ (rest ++ iter)).trans (h₂ iter)⟩
    | false =>
      rw [htakes, if_neg Bool.false_ne_true] at hrest
      obtain ⟨e, he⟩ | ⟨out₁, h₁⟩ := @parseArgs_taken _ _ out arg [] hne (by rw [htakes]; rfl)
      · exact .inl ⟨e, fun iter => he (value :: (rest ++ iter))⟩
      · obtain ⟨e, he⟩ | ⟨out₂, h₂⟩ := @parseArgs_due (value :: rest) out₁ hrest
        · exact .inl ⟨e, fun iter => (h₁ (value :: (rest ++ iter))).trans (he iter)⟩
        · exact .inr ⟨out₂, fun iter => (h₁ (value :: (rest ++ iter))).trans (h₂ iter)⟩

end SecureSudoers
