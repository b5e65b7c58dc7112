/-
Does the audit record of an approved command depend on a sensitive value?

`redact_args` reads the command line a second time, by rules of its own. Where
it keeps step with the validator it hides every sensitive value: a separate one
is announced by its flag, `name=value` is known by its name, an attached one is
cut at the flag's letter, and a sensitive positional is hidden as such.
`redactArgs_secret` takes `InStep` as its hypothesis, which asks this of the
values in which the two command lines differ; `redactArgs_leaks` is a command
line on which the two readings part.
-/
import SecureSudoers.Redaction
import SecureSudoers.ValidatedUnits

namespace SecureSudoers

variable {D : Type} {tool : ToolPolicy}

/-- Two items that are the same but for a sensitive value. -/
inductive Alike (tool : ToolPolicy) : Item → Item → Prop where
  | same {item : Item} : Alike tool item item
  | equals {name v₁ v₂ : Str} : isSensitive tool.parameters name = true →
      Alike tool (.equals name v₁) (.equals name v₂)
  | separate {name v₁ v₂ : Str} : isSensitive tool.parameters name = true →
      Alike tool (.separate name v₁) (.separate name v₂)
  | clusterSeparate {seen : List Char} {c : Char} {v₁ v₂ : Str} : isSensitive tool.parameters ['-', c] = true →
      Alike tool (.clusterSeparate seen c v₁) (.clusterSeparate seen c v₂)
  | attached {seen : List Char} {c : Char} {v₁ v₂ : Str} : isSensitive tool.parameters ['-', c] = true →
      Alike tool (.attached seen c v₁) (.attached seen c v₂)
  | positional {context : ValidationContext} {r₁ r₂ : Str} : sensitivePositionals tool = true →
      Alike tool (.positional context r₁) (.positional context r₂)

/-- The part of a cluster's token up to the flag that takes the value. -/
def flagPart (seen : List Char) (c : Char) : Str := '-' :: (seen ++ [c])

/-- The redactor, in state `s`, shows nothing of the argument `raw`: it skips
it, or takes it for a positional and no parameter. -/
def HiddenText (tool : ToolPolicy) (s : RedactState) (raw : Str) : Prop :=
  s.skipNext = true ∨ (raw ≠ ['-', '-'] ∧ sensitivePositionals tool = true ∧
    (s.afterDoubleDash = true ∨ (sensitiveKey tool.parameters raw = none ∧
      attachedCut raw tool.parameters.entries = none ∧ isSensitive tool.parameters raw = false ∧
      Str.startsWith raw "--" = false ∧ isKnownFlagArgument raw tool.parameters = false)))

/-- The redactor, in state `s`, hides the item's sensitive value: it hides an
argument that is all value, and cuts one no later than the flag. -/
def Hides (tool : ToolPolicy) (s : RedactState) : Item → Prop
  | .separate name value => HiddenText tool (nextState tool s name) value
  | .clusterSeparate seen c value => HiddenText tool (nextState tool s (flagPart seen c)) value
  | .attached seen c value => s.skipNext = true ∨ (s.afterDoubleDash = true ∧ sensitivePositionals tool = true) ∨
      ∃ head tail, attachedCut (flagPart seen c ++ value) tool.parameters.entries = some (head, tail) ∧
        head <+: flagPart seen c
  | .positional _ raw => HiddenText tool s raw
  | _ => True

/-- The state after the tokens. -/
def stateAfter (tool : ToolPolicy) (s : RedactState) (tokens : List Str) : RedactState :=
  tokens.foldl (nextState tool) s

/-- Wherever the two readings differ, the redactor hides the value. -/
def InStep (tool : ToolPolicy) : RedactState → List Item → List Item → Prop
  | s, i₁ :: r₁, i₂ :: r₂ => (i₁ = i₂ ∨ (Hides tool s i₁ ∧ Hides tool s i₂)) ∧ InStep tool (stateAfter tool s i₁.tokens) r₁ r₂
  | _, _, _ => True

/-- The verb's tokens and the items of the rest. -/
def readCommand (tool : ToolPolicy) (args : List Str) : Option (List Str × List Item) :=
  if tool.verbs = [] then (readArgs tool.parameters args).map ([], ·)
  else match args with
    | [] => none
    | verb :: rest => (readArgs tool.parameters rest).map ([verb], ·)

/-! ## What reading an item says about its tokens -/

/-- What the syntax of an item says about its names. -/
def WellRead (tool : ToolPolicy) : Item → Prop
  | .equals name _ => '=' ∉ name
  | .attached seen c value => sensitiveKey tool.parameters (flagPart seen c ++ value) = none ∧ value ≠ []
  | _ => True

theorem attached_token {seen : List Char} {c : Char} {value : Str} :
    (Item.attached seen c value).tokens = [flagPart seen c ++ value] := by
  simp [Item.tokens, flagPart]

theorem sensitiveKey_undeclared {parameters : HashMap ParameterConfig} {arg : Str}
    (h : parameters.get (splitFlag arg none).1 = none) : sensitiveKey parameters arg = none := by
  unfold sensitiveKey
  unfold splitFlag at h
  cases hs : Str.splitOnce '=' arg with
  | none => rfl
  | some kv =>
    simp only [hs] at h
    simp [isSensitive, h]

theorem readCluster_wellRead {parameters : HashMap ParameterConfig} {item : Item} {iter iter' : List Str}
    (hp : parameters = tool.parameters) : ∀ {chars seen : List Char},
    sensitiveKey parameters ('-' :: (seen ++ chars)) = none →
    readCluster parameters seen chars iter = some (item, iter') → WellRead tool item
  | [], seen, _, h => by
    cases h
    trivial
  | c :: chars, seen, hk, h => by
    unfold readCluster at h
    split at h
    · cases h
    · split at h
      · refine readCluster_wellRead hp ?_ h
        rw [List.append_assoc, List.singleton_append]
        exact hk
      · split at h
        · next hne =>
          cases h
          refine ⟨?_, hne⟩
          rw [flagPart, List.cons_append, List.append_assoc, List.singleton_append, ← hp]
          exact hk
        · split at h
          · cases h
            trivial
          · split at h
            · cases h
              trivial
            · cases h

theorem readFlag_wellRead {arg : Str} {iter iter' : List Str} {item : Item} (hs : Str.startsWith arg "-" = true)
    (h : readFlag tool.parameters arg iter = some (item, iter')) : WellRead tool item := by
  unfold readFlag at h
  have hkey := @sensitiveKey_undeclared tool.parameters arg
  have hname : ∀ {name value : Str}, splitFlag arg none = (name, some value) → '=' ∉ name := by
    intro name value he
    unfold splitFlag at he
    cases hsp : Str.splitOnce '=' arg with
    | none =>
      rw [hsp] at he
      cases he
    | some kv =>
      rw [hsp] at he
      cases he
      exact (splitOnce_some hsp).2
  revert hkey hname h
  obtain ⟨name, provided⟩ := splitFlag arg none
  intro h hkey hname
  simp only at h
  split at h
  · next hg =>
    split at h
    · cases h
    · obtain ⟨cs, rfl⟩ := startsWith_dash.mp hs
      exact @readCluster_wellRead tool _ _ _ _ rfl cs [] (hkey hg) h
  · split at h
    · cases h
      trivial
    · cases h
    · cases h
      exact hname rfl
    · cases h
      trivial
    · cases h

theorem readArgsN_wellRead : ∀ {fuel : Nat} {iter : List Str} {items : List Item},
    readArgsN tool.parameters fuel iter = some items → ∀ item ∈ items, WellRead tool item
  | _, [], items, h, item, hm => by
    unfold readArgsN at h
    cases h
    cases hm
  | 0, _ :: _, _, h, _, _ => nomatch h
  | fuel + 1, arg :: iter, items, h, item, hm => by
    obtain ⟨⟨items₁, iter₁⟩, h₁, h⟩ := Option.bind_eq_some_iff.mp h
    obtain ⟨items₂, h₂, h⟩ := Option.bind_eq_some_iff.mp h
    cases h
    rcases List.mem_append.mp hm with hm | hm
    · unfold readArg at h₁
      split at h₁
      · cases h₁
        rcases List.mem_cons.mp hm with rfl | hm
        · trivial
        · obtain ⟨raw, -, rfl⟩ := List.mem_map.mp hm
          trivial
      · split at h₁
        · next hs =>
          obtain ⟨⟨item', iter'⟩, hf, he⟩ := Option.map_eq_some_iff.mp h₁
          cases he
          cases List.mem_singleton.mp hm
          exact readFlag_wellRead (Bool.and_eq_true_iff.mp hs).1 hf
        · cases h₁
          cases List.mem_singleton.mp hm
          trivial
    · exact readArgsN_wellRead h₂ item hm

/-- The items of an accepted command. -/
theorem readCommand_of_ok {fs : FileSystem D} {regexNew : Str → Option Regex} {policy : SecureSudoersPolicy}
    {toolName : Str} {args : List Str} {res : ValidationResult D} (ht : policy.tools.get toolName = some tool)
    (h : validateCommand (checkPath fs) regexNew policy toolName args = .ok res) :
    ∃ verb items, readCommand tool args = some (verb, items) ∧ args = verb ++ items.flatMap Item.tokens ∧
      ∀ item ∈ items, WellRead tool item := by
  obtain ⟨tool', safeRe, iter, out, ht', -, -, hv, hp⟩ := validateCommand_ok h
  cases ht.symm.trans ht'
  obtain ⟨items, chunks, hr, -, -⟩ := parseArgs_reads hp
  have hitems := readArgsN_wellRead hr
  have htok := readArgs_tokens hr
  have hr' : readArgs tool.parameters iter = some items := hr
  unfold readCommand
  obtain ⟨hnil, -, rfl⟩ | ⟨verb, hmem, rfl, -⟩ := takeVerb_ok hv
  · have hnil' : tool.verbs = [] := hnil
    rw [if_pos hnil', hr']
    exact ⟨[], items, rfl, htok.symm, hitems⟩
  · have hne : tool.verbs ≠ [] := List.ne_nil_of_mem hmem
    rw [if_neg hne]
    simp only [hr']
    exact ⟨[verb], items, rfl, by rw [htok]; rfl, hitems⟩

/-! ## One argument -/

variable {s : RedactState}

theorem HiddenText.redactArg {raw : Str} (h : HiddenText tool s raw) :
    redactArg tool s raw = some ([redactedEntry], { s with skipNext := false }) := by
  unfold SecureSudoers.redactArg
  cases hs : s.skipNext with
  | true => rfl
  | false =>
    obtain ⟨hne, hpos, hcase⟩ := h.resolve_left (by rw [hs]; decide)
    have hsame : s = { s with skipNext := false } := by rw [← hs]
    rw [if_neg (by decide), if_neg hne, ← hsame]
    cases hd : s.afterDoubleDash with
    | true => simp [hpos]
    | false =>
      obtain ⟨hkey, hcut, hsens, hlong, hknown⟩ := hcase.resolve_left (by rw [hd]; decide)
      have hwhole : redactWhole tool s raw = ([redactedEntry], s) := by
        rw [redactWhole, hsens, if_neg (by decide), hlong, Bool.and_false, if_neg (by decide), hpos, if_pos rfl,
          hknown, Bool.and_false, if_neg (by decide)]
      simp [hkey, attachedEntry_eq, hcut, hwhole]

theorem HiddenText.same {r₁ r₂ : Str} (h₁ : HiddenText tool s r₁) (h₂ : HiddenText tool s r₂) :
    SecureSudoers.redactArg tool s r₁ = SecureSudoers.redactArg tool s r₂ :=
  h₁.redactArg.trans h₂.redactArg.symm

theorem redactArg_equals {name v₁ v₂ : Str} (hname : '=' ∉ name) (hs : isSensitive tool.parameters name = true) :
    redactArg tool s (name ++ '=' :: v₁) = redactArg tool s (name ++ '=' :: v₂) := by
  have hkey : ∀ v : Str, sensitiveKey tool.parameters (name ++ '=' :: v) = some name := by
    intro v
    simp [sensitiveKey, splitOnce_mid hname, hs]
  have hne : ∀ v : Str, name ++ '=' :: v ≠ ['-', '-'] := by
    intro v he
    have hmem : '=' ∈ (['-', '-'] : Str) := he ▸ List.mem_append_right _ (List.mem_cons_self ..)
    exact absurd hmem (by decide)
  unfold SecureSudoers.redactArg
  rw [if_neg (hne v₁), if_neg (hne v₂), hkey, hkey]

theorem isShort_append {p v : Str} (hp : 2 ≤ p.length) : isShort (p ++ v) = isShort p := by
  match p, hp with
  | a :: b :: p, _ => simp [isShort, Str.startsWith, List.isPrefixOf]

/-- A cut within the part that two arguments share is the cut of that part. -/
theorem cutAt_append {p v : Str} {flag : Str × ParameterConfig} (hp : 2 ≤ p.length) :
    (∃ head tail, cutAt p flag = some (head, tail) ∧ cutAt (p ++ v) flag = some (head, tail ++ v)) ∨
      (cutAt p flag = none ∧ ∀ cut, cutAt (p ++ v) flag = some cut → ¬cut.1 <+: p) := by
  unfold cutAt
  rw [isShort_append hp]
  by_cases hc : (sensitiveShort flag.1 flag.2 && isShort p) = true
  · rw [if_pos hc, if_pos hc]
    cases flag.1[1]? with
    | none => exact .inr ⟨rfl, fun cut h => nomatch h⟩
    | some c =>
      simp only [Option.bind_some, splitOnce_append]
      cases hsp : Str.splitOnce c p with
      | some ab => exact .inl ⟨_, _, rfl, rfl⟩
      | none =>
        refine .inr ⟨rfl, fun cut h hpre => ?_⟩
        obtain ⟨⟨a, b⟩, h', rfl⟩ := Option.map_eq_some_iff.mp h
        obtain ⟨⟨a', b'⟩, -, he⟩ := Option.map_eq_some_iff.mp h'
        cases he
        exact splitOnce_none.mp hsp (hpre.subset (by simp))
  · rw [if_neg hc, if_neg hc]
    exact .inr ⟨rfl, fun cut h => nomatch h⟩

theorem attachedCut_shared {p v₁ v₂ head₁ tail₁ head₂ tail₂ : Str} (hp : 2 ≤ p.length) :
    ∀ {entries : List (Str × ParameterConfig)},
    attachedCut (p ++ v₁) entries = some (head₁, tail₁) → head₁ <+: p →
    attachedCut (p ++ v₂) entries = some (head₂, tail₂) → head₂ <+: p → head₁ = head₂
  | [], h, _, _, _ => nomatch h
  | flag :: rest, h₁, hpre₁, h₂, hpre₂ => by
    rw [attachedCut, List.findSome?_cons] at h₁ h₂
    obtain ⟨head, tail, hc, hc₁⟩ | ⟨hc, hc₁⟩ := @cutAt_append p v₁ flag hp
    · obtain ⟨head', tail', hc', hc₂⟩ | ⟨hc', -⟩ := @cutAt_append p v₂ flag hp
      · cases hc.symm.trans hc'
        rw [hc₁] at h₁
        rw [hc₂] at h₂
        cases h₁
        cases h₂
        rfl
      · cases hc.symm.trans hc'
    · obtain ⟨head', tail', hc', -⟩ | ⟨-, hc₂⟩ := @cutAt_append p v₂ flag hp
      · cases hc.symm.trans hc'
      · cases hr₁ : cutAt (p ++ v₁) flag with
        | some cut =>
          rw [hr₁] at h₁
          cases h₁
          exact absurd hpre₁ (hc₁ _ hr₁)
        | none =>
          cases hr₂ : cutAt (p ++ v₂) flag with
          | some cut =>
            rw [hr₂] at h₂
            cases h₂
            exact absurd hpre₂ (hc₂ _ hr₂)
          | none =>
            rw [hr₁] at h₁
            rw [hr₂] at h₂
            exact attachedCut_shared hp h₁ hpre₁ h₂ hpre₂

theorem length_flagPart {seen : List Char} {c : Char} : 2 ≤ (flagPart seen c).length := by
  simp only [flagPart, List.length_cons, List.length_append, List.length_nil]
  omega

theorem WellRead.ne_delimiter {seen : List Char} {c : Char} {value : Str}
    (hw : WellRead tool (.attached seen c value)) : flagPart seen c ++ value ≠ ['-', '-'] := by
  intro he
  have hlen := congrArg List.length he
  have hpos := List.length_pos_iff.mpr hw.2
  have hflag := @length_flagPart seen c
  simp only [List.length_append, List.length_cons, List.length_nil] at hlen
  omega

/-- An attached value that is neither skipped nor hidden as a positional is cut. -/
theorem redactArg_cut {seen : List Char} {c : Char} {value head tail : Str}
    (hw : WellRead tool (.attached seen c value)) (hs : s.skipNext = false)
    (hd : (s.afterDoubleDash && sensitivePositionals tool) = false)
    (hcut : attachedCut (flagPart seen c ++ value) tool.parameters.entries = some (head, tail))
    (hpre : head <+: flagPart seen c) :
    redactArg tool s (flagPart seen c ++ value) = some ([head ++ redactedEntry], { s with skipNext := false }) := by
  have htail : tail ≠ [] := by
    intro ht
    have hlen := congrArg List.length (attachedCut_append hcut)
    have hle := hpre.length_le
    have hpos := List.length_pos_iff.mpr hw.2
    rw [ht, List.append_nil, List.length_append] at hlen
    omega
  unfold SecureSudoers.redactArg
  rw [if_neg (by rw [hs]; decide), if_neg hw.ne_delimiter, if_neg (by rw [hd]; decide), hw.1]
  simp [attachedEntry_eq, hcut, cutEntry, htail]

theorem redactArg_attached {seen : List Char} {c : Char} {v₁ v₂ : Str} (hw₁ : WellRead tool (.attached seen c v₁))
    (hw₂ : WellRead tool (.attached seen c v₂)) (h₁ : Hides tool s (.attached seen c v₁))
    (h₂ : Hides tool s (.attached seen c v₂)) :
    redactArg tool s (flagPart seen c ++ v₁) = redactArg tool s (flagPart seen c ++ v₂) := by
  cases hs : s.skipNext with
  | true => exact HiddenText.same (.inl hs) (.inl hs)
  | false =>
    have hns : ¬s.skipNext = true := by rw [hs]; decide
    cases hd : s.afterDoubleDash && sensitivePositionals tool with
    | true =>
      obtain ⟨hdd, hpos⟩ := Bool.and_eq_true_iff.mp hd
      exact HiddenText.same (.inr ⟨hw₁.ne_delimiter, hpos, .inl hdd⟩) (.inr ⟨hw₂.ne_delimiter, hpos, .inl hdd⟩)
    | false =>
      have hnd : ¬(s.afterDoubleDash = true ∧ sensitivePositionals tool = true) := by
        rw [← Bool.and_eq_true_iff, hd]
        decide
      obtain ⟨head₁, tail₁, hc₁, hp₁⟩ := (h₁.resolve_left hns).resolve_left hnd
      obtain ⟨head₂, tail₂, hc₂, hp₂⟩ := (h₂.resolve_left hns).resolve_left hnd
      have hhead := attachedCut_shared length_flagPart hc₁ hp₁ hc₂ hp₂
      rw [redactArg_cut hw₁ hs hd hc₁ hp₁, redactArg_cut hw₂ hs hd hc₂ hp₂, hhead]

/-! ## Two runs of the loop -/

/-- Two lists of arguments on which the loop does the same, from a common state. -/
inductive SameRun (tool : ToolPolicy) : RedactState → List Str → List Str → Prop where
  | nil {s : RedactState} : SameRun tool s [] []
  | cons {s : RedactState} {t₁ t₂ : Str} {r₁ r₂ : List Str} : redactArg tool s t₁ = redactArg tool s t₂ →
      SameRun tool (nextState tool s t₁) r₁ r₂ → SameRun tool s (t₁ :: r₁) (t₂ :: r₂)

theorem SameRun.refl : ∀ {args : List Str} {s : RedactState}, SameRun tool s args args
  | [], _ => .nil
  | _ :: _, _ => .cons rfl .refl

theorem SameRun.append {a₁ a₂ b₁ b₂ : List Str} (ha : SameRun tool s a₁ a₂)
    (hb : SameRun tool (stateAfter tool s a₁) b₁ b₂) : SameRun tool s (a₁ ++ b₁) (a₂ ++ b₂) := by
  induction ha with
  | nil => exact hb
  | cons he _ ih => exact .cons he (ih hb)

theorem SameRun.redactLoop {a₁ a₂ : List Str} (h : SameRun tool s a₁ a₂) :
    redactLoop tool s a₁ = redactLoop tool s a₂ := by
  induction h with
  | nil => rfl
  | @cons s t₁ t₂ _ _ he _ ih =>
    obtain ⟨entries, s', h₁, hstep⟩ := @redactArg_step tool s t₁
    rw [redactLoop_cons h₁, redactLoop_cons (he ▸ h₁), hstep.next, ih]

/-- **One item**: the loop does the same on two readings of it that differ in a hidden value. -/
theorem Alike.sameRun {i₁ i₂ : Item} (h : Alike tool i₁ i₂) (hw₁ : WellRead tool i₁) (hw₂ : WellRead tool i₂)
    (hs : i₁ = i₂ ∨ (Hides tool s i₁ ∧ Hides tool s i₂)) : SameRun tool s i₁.tokens i₂.tokens := by
  rcases hs with rfl | ⟨h₁, h₂⟩
  · exact .refl
  · cases h with
    | same => exact .refl
    | equals hsens => exact .cons (redactArg_equals hw₁ hsens) .nil
    | separate => exact .cons rfl (.cons (HiddenText.same h₁ h₂) .nil)
    | clusterSeparate => exact .cons rfl (.cons (HiddenText.same h₁ h₂) .nil)
    | attached =>
      rw [attached_token, attached_token]
      exact .cons (redactArg_attached hw₁ hw₂ h₁ h₂) .nil
    | positional => exact .cons (HiddenText.same h₁ h₂) .nil

theorem sameRun_items {items₁ items₂ : List Item} (h : List.Forall₂ (Alike tool) items₁ items₂) :
    ∀ {s : RedactState}, (∀ item ∈ items₁, WellRead tool item) → (∀ item ∈ items₂, WellRead tool item) →
    InStep tool s items₁ items₂ → SameRun tool s (items₁.flatMap Item.tokens) (items₂.flatMap Item.tokens) := by
  induction h with
  | nil => exact fun _ _ _ => .nil
  | cons ha _ ih =>
    intro s hw₁ hw₂ hs
    rw [List.forall_mem_cons] at hw₁ hw₂
    rw [List.flatMap_cons, List.flatMap_cons]
    exact (ha.sameRun hw₁.1 hw₂.1 hs.1).append (ih hw₁.2 hw₂.2 hs.2)

/-! ## The record of an accepted command -/

/-- **The record does not depend on a sensitive value** that the redactor, in
step with the validator, hides: two accepted command lines that are read alike
but for such values leave the same record. -/
theorem redactArgs_secret {fs₁ fs₂ : FileSystem D} {regexNew : Str → Option Regex} {policy : SecureSudoersPolicy}
    {toolName : Str} {args₁ args₂ verb : List Str} {items₁ items₂ : List Item} {res₁ res₂ : ValidationResult D}
    (ht : policy.tools.get toolName = some tool)
    (h₁ : validateCommand (checkPath fs₁) regexNew policy toolName args₁ = .ok res₁)
    (h₂ : validateCommand (checkPath fs₂) regexNew policy toolName args₂ = .ok res₂)
    (hr₁ : readCommand tool args₁ = some (verb, items₁)) (hr₂ : readCommand tool args₂ = some (verb, items₂))
    (hdiffer : List.Forall₂ (Alike tool) items₁ items₂)
    (hstep : InStep tool (stateAfter tool {} verb) items₁ items₂) :
    redactArgs args₁ policy toolName = redactArgs args₂ policy toolName := by
  obtain ⟨verb₁, items₁', hr₁', htok₁, hw₁⟩ := readCommand_of_ok ht h₁
  obtain ⟨verb₂, items₂', hr₂', htok₂, hw₂⟩ := readCommand_of_ok ht h₂
  cases hr₁.symm.trans hr₁'
  cases hr₂.symm.trans hr₂'
  rw [redactArgs, redactArgs, ht, htok₁, htok₂]
  exact (SameRun.refl.append (sameRun_items hdiffer hw₁ hw₂ hstep)).redactLoop

/-- A tool with the sensitive `--secret` and `-p`, and `-n`, whose values are no secret. -/
def loginTool : ToolPolicy :=
  { realBinary := "/bin/ls"
    parameters := ⟨[("-n", { paramType := .string }), ("-p", { paramType := .string, sensitive := true }),
      ("--secret", { paramType := .string, sensitive := true })], by decide⟩ }

def loginPolicy : SecureSudoersPolicy := { globalSettings := {}, tools := .single "login" loginTool }

/-- `login -phunter2 --secret hunter2` and `login -phunter3 --secret hunter3`. -/
theorem redactArgs_secret_login :
    redactArgs ["-phunter2", "--secret", "hunter2"] loginPolicy "login" =
      redactArgs ["-phunter3", "--secret", "hunter3"] loginPolicy "login" := by
  refine @redactArgs_secret Nat loginTool lsTree lsTree defaultRegexNew loginPolicy "login"
    ["-phunter2", "--secret", "hunter2"] ["-phunter3", "--secret", "hunter3"] []
    [.attached [] 'p' "hunter2", .separate "--secret" "hunter2"]
    [.attached [] 'p' "hunter3", .separate "--secret" "hunter3"] _ _ rfl rfl rfl rfl rfl ?_ ?_
  · exact .cons (.attached rfl) (.cons (.separate rfl) .nil)
  · refine ⟨.inr ⟨.inr (.inr ⟨"-p", "hunter2", rfl, ?_⟩), .inr (.inr ⟨"-p", "hunter3", rfl, ?_⟩)⟩,
      .inr ⟨.inl rfl, .inl rfl⟩, trivial⟩ <;> exact List.prefix_rfl

/-- `login -n --x --secret hunter2`: to the validator `--x` is the value of
`-n`, to the redactor a flag whose value is `--secret`, and the secret is shown. -/
theorem redactArgs_leaks :
    ¬∀ (fs : FileSystem Nat) (regexNew : Str → Option Regex) (policy : SecureSudoersPolicy) (toolName : Str)
      (tool : ToolPolicy) (args₁ args₂ verb : List Str) (items₁ items₂ : List Item) (res₁ res₂ : ValidationResult Nat),
      policy.tools.get toolName = some tool →
      validateCommand (checkPath fs) regexNew policy toolName args₁ = .ok res₁ →
      validateCommand (checkPath fs) regexNew policy toolName args₂ = .ok res₂ →
      readCommand tool args₁ = some (verb, items₁) → readCommand tool args₂ = some (verb, items₂) →
      List.Forall₂ (Alike tool) items₁ items₂ →
      redactArgs args₁ policy toolName = redactArgs args₂ policy toolName := by
  intro h
  have := h lsTree defaultRegexNew loginPolicy "login" loginTool ["-n", "--x", "--secret", "hunter2"]
    ["-n", "--x", "--secret", "hunter3"] [] [.separate "-n" "--x", .separate "--secret" "hunter2"]
    [.separate "-n" "--x", .separate "--secret" "hunter3"] _ _ rfl rfl rfl rfl rfl
    (.cons .same (.cons (.separate rfl) .nil))
  exact absurd this (by decide)

end SecureSudoers
