/-
What the audit log shows of the arguments (`helpers/redaction.rs`). The loop
carries two flags: the next argument is a sensitive value, and `--` has been
seen. `none` is a panic: a slice inside a character.

Every iteration pushes an entry but one: a declared long flag that is not
sensitive, before `--`, leaves through a branch without a push.
`redactArgs_entries_iff` says that the record has an entry for every argument,
each of an allowed form, exactly when the command line has no such flag where
the loop looks.
-/
import SecureSudoers.Models

namespace SecureSudoers

/-- What the loop carries from one argument to the next. -/
structure RedactState where
  skipNext : Bool := false
  afterDoubleDash : Bool := false
  deriving DecidableEq, Repr

def redactedEntry : Str := "[REDACTED]"

/-- Is the flag called `name` declared and sensitive? -/
def isSensitive (parameters : HashMap ParameterConfig) (name : Str) : Bool := (parameters.get name).any (·.sensitive)

/-- Are the tool's positionals sensitive? -/
def sensitivePositionals (tool : ToolPolicy) : Bool := tool.positional.any (·.sensitive)

/-- `-x`, with no second `-`. -/
def isShort (arg : Str) : Bool := Str.startsWith arg "-" && !Str.startsWith arg "--"

/-- The short flags of a cluster up to the first that is not a Bool. -/
def knownCluster (parameters : HashMap ParameterConfig) : List Char → Bool
  | [] => true
  | c :: rest =>
    match parameters.get ['-', c] with
    | none => false
    | some config => if config.paramType ≠ .bool then true else knownCluster parameters rest

/-- `is_known_flag_argument`. -/
def isKnownFlagArgument (arg : Str) (parameters : HashMap ParameterConfig) : Bool :=
  if Str.startsWith arg "--" then
    match Str.splitOnce '=' arg with
    | some (key, _) => parameters.containsKey key
    | none => parameters.containsKey arg
  else if !Str.startsWith arg "-" || arg == ['-'] then false
  else if parameters.containsKey arg then true
  else knownCluster parameters (arg.drop 1)

/-- The sensitive short flag of one octet that `(name, config)` declares. -/
def sensitiveShort (name : Str) (config : ParameterConfig) : Bool :=
  config.sensitive && isShort name && Str.len name == 2

/-- The loop over the declared flags: the first sensitive short flag whose
letter is in `arg` cuts it there, or announces a value. The second component
is the new `skip_next`. -/
def attachedEntry (arg : Str) : List (Str × ParameterConfig) → Option (Option (Str × Bool))
  | [] => some none
  | (fName, config) :: rest =>
    if sensitiveShort fName config then do
      let flagChar ← fName[1]?
      if isShort arg then
        match Str.find flagChar arg with
        | some pos =>
          if pos < Str.len arg - 1 then do
            let head ← Str.sliceTo arg (pos + 1)
            some (some (head ++ redactedEntry, false))
          else some (some (arg, true))
        | none => attachedEntry arg rest
      else attachedEntry arg rest
    else attachedEntry arg rest

/-- The last part of an iteration, after the attached flags. -/
def redactWhole (tool : ToolPolicy) (s : RedactState) (arg : Str) : List Str × RedactState :=
  if isSensitive tool.parameters arg then ([arg], { s with skipNext := true })
  else if !s.afterDoubleDash && Str.startsWith arg "--" then
    match Str.splitOnce '=' arg with
    | some (key, _) =>
      if !tool.parameters.containsKey key then ([key ++ "=" ++ redactedEntry], s)
      -- no push
      else ([], s)
    | none =>
      if !tool.parameters.containsKey arg then ([arg], { s with skipNext := true })
      -- no push
      else ([], s)
  else if sensitivePositionals tool then
    if Str.startsWith arg "-" && isKnownFlagArgument arg tool.parameters then ([arg], s)
    else ([redactedEntry], s)
  else ([arg], s)

/-- The key of a `key=value` argument whose key is sensitive. -/
def sensitiveKey (parameters : HashMap ParameterConfig) (arg : Str) : Option Str :=
  match Str.splitOnce '=' arg with
  | some (key, _) => if isSensitive parameters key then some key else none
  | none => none

/-- One iteration: what it pushes, and the state after it. -/
def redactArg (tool : ToolPolicy) (s : RedactState) (arg : Str) : Option (List Str × RedactState) :=
  if s.skipNext then some ([redactedEntry], { s with skipNext := false })
  else if arg = ['-', '-'] then some ([arg], { s with afterDoubleDash := true })
  else if s.afterDoubleDash && sensitivePositionals tool then some ([redactedEntry], s)
  else match sensitiveKey tool.parameters arg with
    | some key => some ([key ++ "=" ++ redactedEntry], s)
    | none => do
      match ← attachedEntry arg tool.parameters.entries with
      | some (entry, skipNext) => some ([entry], { s with skipNext })
      | none => some (redactWhole tool s arg)

/-- The loop over the arguments of a tool in the policy. -/
def redactLoop (tool : ToolPolicy) : RedactState → List Str → Option (List Str)
  | _, [] => some []
  | s, arg :: rest => do
    let (entries, s') ← redactArg tool s arg
    let tail ← redactLoop tool s' rest
    some (entries ++ tail)

/-- An argument of a tool that is not in the policy, when only keys are shown. -/
def redactUnknown (arg : Str) : Option Str :=
  match Str.splitOnce '=' arg with
  | some (key, _) => some (if Str.startsWith key "-" then key ++ "=" ++ redactedEntry else redactedEntry)
  | none =>
    if Str.startsWith arg "-" then
      if !Str.startsWith arg "--" && 2 < Str.len arg then do
        let head ← Str.sliceTo arg 2
        some (head ++ redactedEntry)
      else some arg
    else some redactedEntry

/-- `redact_args`. -/
def redactArgs (args : List Str) (policy : SecureSudoersPolicy) (toolName : Str) : Option (List Str) :=
  match policy.tools.get toolName with
  | some tool => redactLoop tool {} args
  | none =>
    match policy.globalSettings.unauthorizedAuditMode with
    | .minimal => some ["[" ++ Nat.toDigits 10 args.length ++ " arguments suppressed]"]
    | .keysOnly => args.mapM redactUnknown
    | .full => some args

/-- An entry of the record that shows no more of its argument than a prefix. -/
inductive EntryOf (arg : Str) : Str → Prop where
  | whole : EntryOf arg arg
  | hidden : EntryOf arg redactedEntry
  | cut {pre : Str} : pre <+: arg → EntryOf arg (pre ++ redactedEntry)
  | key {pre : Str} : pre <+: arg → EntryOf arg (pre ++ "=" ++ redactedEntry)

/-! ## One iteration -/

variable {tool : ToolPolicy} {s s' : RedactState} {arg : Str}

/-- Where a declared flag cuts `arg`, if it is a sensitive short one whose letter
is in it: the part up to the letter, and what follows. -/
def cutAt (arg : Str) (flag : Str × ParameterConfig) : Option (Str × Str) :=
  if sensitiveShort flag.1 flag.2 && isShort arg then
    flag.1[1]?.bind fun c => (Str.splitOnce c arg).map fun (a, b) => (a ++ [c], b)
  else none

/-- Where the first such flag cuts it. -/
def attachedCut (arg : Str) (entries : List (Str × ParameterConfig)) : Option (Str × Str) :=
  entries.findSome? (cutAt arg)

theorem sensitiveShort_letter {fName : Str} {config : ParameterConfig} (h : sensitiveShort fName config = true) :
    ∃ c, fName = ['-', c] ∧ c.utf8Size = 1 := by
  unfold sensitiveShort isShort at h
  rw [Bool.and_eq_true, Bool.and_eq_true, Bool.and_eq_true] at h
  obtain ⟨⟨-, hdash, -⟩, hlen⟩ := h
  obtain ⟨cs, rfl⟩ := startsWith_dash.mp hdash
  have hone : ('-' : Char).utf8Size = 1 := by decide
  rw [beq_iff_eq, len_cons, hone] at hlen
  cases cs with
  | nil => exact absurd hlen (by decide)
  | cons c cs =>
    rw [len_cons] at hlen
    have hpos := c.utf8Size_pos
    have hcs : cs = [] := len_eq_zero.mp (by omega)
    subst hcs
    exact ⟨c, rfl, by omega⟩

theorem attachedCut_append {entries : List (Str × ParameterConfig)} {head tail : Str}
    (h : attachedCut arg entries = some (head, tail)) : arg = head ++ tail := by
  obtain ⟨flag, -, hf⟩ := List.exists_of_findSome?_eq_some h
  unfold cutAt at hf
  split at hf
  · obtain ⟨c, -, hc⟩ := Option.bind_eq_some_iff.mp hf
    obtain ⟨⟨a, b⟩, hs, he⟩ := Option.map_eq_some_iff.mp hc
    cases he
    rw [List.append_assoc, List.singleton_append]
    exact (splitOnce_some hs).1
  · cases hf

/-- The entry of an argument cut into `head` and `tail`, and the new `skip_next`. -/
def cutEntry (arg : Str) : Str × Str → Str × Bool
  | (head, tail) => if tail = [] then (arg, true) else (head ++ redactedEntry, false)

/-- One declared flag of the loop: it slices after a letter it has found, so it never panics. -/
theorem attachedEntry_cons {fName : Str} {config : ParameterConfig} {rest : List (Str × ParameterConfig)} :
    attachedEntry arg ((fName, config) :: rest) =
      match cutAt arg (fName, config) with
      | some cut => some (some (cutEntry arg cut))
      | none => attachedEntry arg rest := by
  rw [attachedEntry, cutAt]
  simp only
  by_cases hs : sensitiveShort fName config = true
  · obtain ⟨c, rfl, hc⟩ := sensitiveShort_letter hs
    rw [if_pos hs, hs, Bool.true_and]
    show (if isShort arg = true then _ else attachedEntry arg rest) = _
    by_cases ha : isShort arg = true
    · rw [if_pos ha, if_pos ha]
      show _ = match (Str.splitOnce c arg).map fun (a, b) => (a ++ [c], b) with
        | some cut => some (some (cutEntry arg cut))
        | none => attachedEntry arg rest
      cases hsp : Str.splitOnce c arg with
      | none =>
        rw [find_eq, hsp]
        rfl
      | some ab =>
        obtain ⟨a, b⟩ := ab
        obtain ⟨hfind, -, -, hslice⟩ := sliceTo_find hc hsp
        have hlen : Str.len arg = Str.len a + 1 + Str.len b := by
          rw [(splitOnce_some hsp).1, len_append, len_cons, hc]
          omega
        have hb : Str.len a < Str.len arg - 1 ↔ b ≠ [] := by
          rw [ne_eq, ← len_eq_zero, hlen]
          omega
        rw [hfind, Option.map_some]
        simp only [cutEntry, hslice]
        by_cases hbn : b = []
        · rw [if_neg (mt hb.mp (not_not_intro hbn)), if_pos hbn]
        · rw [if_pos (hb.mpr hbn), if_neg hbn]
          rfl
    · rw [if_neg ha, if_neg ha]
  · rw [if_neg hs, Bool.eq_false_iff.mpr hs, Bool.false_and]
    rfl

theorem attachedEntry_eq : ∀ {entries : List (Str × ParameterConfig)},
    attachedEntry arg entries = some ((attachedCut arg entries).map (cutEntry arg))
  | [] => rfl
  | (fName, config) :: rest => by
    rw [attachedEntry_cons, attachedCut, List.findSome?_cons]
    cases cutAt arg (fName, config) with
    | some cut => rfl
    | none => exact attachedEntry_eq

theorem cutAt_isShort {flag : Str × ParameterConfig} {cut : Str × Str} (h : cutAt arg flag = some cut) :
    isShort arg = true := by
  unfold cutAt at h
  split at h
  · next hc => exact (Bool.and_eq_true_iff.mp hc).2
  · cases h

theorem attachedCut_isShort {entries : List (Str × ParameterConfig)} {cut : Str × Str}
    (h : attachedCut arg entries = some cut) : isShort arg = true := by
  obtain ⟨flag, -, hf⟩ := List.exists_of_findSome?_eq_some h
  exact cutAt_isShort hf

/-- A cut leaves the dash. -/
theorem cutAt_dash {flag : Str × ParameterConfig} {head tail : Str} (h : cutAt arg flag = some (head, tail)) :
    ∃ cs, head = '-' :: cs ∧ arg = head ++ tail := by
  have hshort := cutAt_isShort h
  unfold cutAt at h
  split at h
  · obtain ⟨c, -, hc⟩ := Option.bind_eq_some_iff.mp h
    obtain ⟨⟨a, b⟩, hs, he⟩ := Option.map_eq_some_iff.mp hc
    cases he
    obtain ⟨cs, rfl⟩ := startsWith_dash.mp (Bool.and_eq_true_iff.mp hshort).1
    have happ := (splitOnce_some hs).1
    cases a with
    | nil =>
      cases happ
      exact ⟨[], rfl, rfl⟩
    | cons d a =>
      cases happ
      exact ⟨a ++ [c], rfl, by simp⟩
  · cases h

theorem sensitiveKey_some {parameters : HashMap ParameterConfig} {key : Str}
    (h : sensitiveKey parameters arg = some key) :
    key <+: arg ∧ isSensitive parameters key = true ∧ ∃ value, Str.splitOnce '=' arg = some (key, value) := by
  unfold sensitiveKey at h
  split at h
  · next k v hs =>
    split at h
    · next hk =>
      cases h
      exact ⟨⟨_, (splitOnce_some hs).1.symm⟩, hk, v, hs⟩
    · cases h
  · cases h

/-- An argument the iteration looks at: it is not skipped, no delimiter, and not
hidden as a positional after one. -/
structure Inspected (tool : ToolPolicy) (s : RedactState) (arg : Str) : Prop where
  skipNext : s.skipNext = false
  ne_delimiter : arg ≠ ['-', '-']
  delimited : s.afterDoubleDash = true → sensitivePositionals tool = false

/-- An argument that is neither `key=value` with a sensitive key nor cut at a sensitive short flag. -/
structure Unattached (tool : ToolPolicy) (s : RedactState) (arg : Str) : Prop extends Inspected tool s arg where
  no_key : sensitiveKey tool.parameters arg = none
  no_cut : attachedCut arg tool.parameters.entries = none

/-- A long flag before `--` that is not sensitive itself. -/
structure LongFlag (tool : ToolPolicy) (s : RedactState) (arg : Str) : Prop extends Unattached tool s arg where
  long : Str.startsWith arg "--" = true
  before : s.afterDoubleDash = false
  insensitive : isSensitive tool.parameters arg = false

/-- **What one iteration can do**: the entries it pushes and the state it leaves, branch by branch. -/
inductive RedactStep (tool : ToolPolicy) (s : RedactState) (arg : Str) : List Str → RedactState → Prop where
  | skipped : s.skipNext = true → RedactStep tool s arg [redactedEntry] { s with skipNext := false }
  | delimiter : s.skipNext = false → arg = ['-', '-'] → RedactStep tool s arg [arg] { s with afterDoubleDash := true }
  | delimited : s.skipNext = false → arg ≠ ['-', '-'] → s.afterDoubleDash = true → sensitivePositionals tool = true →
      RedactStep tool s arg [redactedEntry] s
  | key {key : Str} : Inspected tool s arg → sensitiveKey tool.parameters arg = some key →
      RedactStep tool s arg [key ++ "=" ++ redactedEntry] s
  | attached {head tail : Str} : Inspected tool s arg → sensitiveKey tool.parameters arg = none →
      attachedCut arg tool.parameters.entries = some (head, tail) → tail ≠ [] →
      RedactStep tool s arg [head ++ redactedEntry] s
  | attachedLast {head : Str} : Inspected tool s arg → sensitiveKey tool.parameters arg = none →
      attachedCut arg tool.parameters.entries = some (head, []) →
      RedactStep tool s arg [arg] { s with skipNext := true }
  | sensitive : Unattached tool s arg → isSensitive tool.parameters arg = true →
      RedactStep tool s arg [arg] { s with skipNext := true }
  | unknownKey {key value : Str} : LongFlag tool s arg → Str.splitOnce '=' arg = some (key, value) →
      tool.parameters.containsKey key = false → RedactStep tool s arg [key ++ "=" ++ redactedEntry] s
  | plainKey {key value : Str} : LongFlag tool s arg → Str.splitOnce '=' arg = some (key, value) →
      tool.parameters.containsKey key = true → RedactStep tool s arg [] s
  | unknownLong : LongFlag tool s arg → Str.splitOnce '=' arg = none →
      tool.parameters.containsKey arg = false → RedactStep tool s arg [arg] { s with skipNext := true }
  | plainLong : LongFlag tool s arg → Str.splitOnce '=' arg = none →
      tool.parameters.containsKey arg = true → RedactStep tool s arg [] s
  | hidden : Unattached tool s arg → isSensitive tool.parameters arg = false →
      (s.afterDoubleDash = true ∨ Str.startsWith arg "--" = false) → sensitivePositionals tool = true →
      (Str.startsWith arg "-" && isKnownFlagArgument arg tool.parameters) = false →
      RedactStep tool s arg [redactedEntry] s
  | shown : Unattached tool s arg → isSensitive tool.parameters arg = false →
      (s.afterDoubleDash = true ∨ Str.startsWith arg "--" = false) →
      (sensitivePositionals tool = true → (Str.startsWith arg "-" && isKnownFlagArgument arg tool.parameters) = true) →
      RedactStep tool s arg [arg] s

theorem redactWhole_step (h : Unattached tool s arg) :
    RedactStep tool s arg (redactWhole tool s arg).1 (redactWhole tool s arg).2 := by
  unfold redactWhole
  split
  · next hs => exact .sensitive h hs
  · next hs =>
    have hs' := Bool.eq_false_iff.mpr hs
    split
    · next hl =>
      obtain ⟨hdd, hlong⟩ := Bool.and_eq_true_iff.mp hl
      have hflag : LongFlag tool s arg := ⟨h, hlong, by simpa using hdd, hs'⟩
      split
      · next key value hsp =>
        split
        · next hc => exact .unknownKey hflag hsp (by simpa using hc)
        · next hc => exact .plainKey hflag hsp (by simpa using hc)
      · next hsp =>
        split
        · next hc => exact .unknownLong hflag hsp (by simpa using hc)
        · next hc => exact .plainLong hflag hsp (by simpa using hc)
    · next hl =>
      have hdd : s.afterDoubleDash = true ∨ Str.startsWith arg "--" = false := by
        cases hd : s.afterDoubleDash with
        | true => exact .inl rfl
        | false =>
          rw [hd, Bool.not_false, Bool.true_and] at hl
          exact .inr (Bool.eq_false_iff.mpr hl)
      split
      · next hp =>
        split
        · next hk => exact .shown h hs' hdd fun _ => hk
        · next hk => exact .hidden h hs' hdd hp (Bool.eq_false_iff.mpr hk)
      · next hp => exact .shown h hs' hdd fun hp' => absurd hp' hp

/-- **An iteration never panics**, and does what `RedactStep` says. -/
theorem redactArg_step : ∃ entries s', redactArg tool s arg = some (entries, s') ∧ RedactStep tool s arg entries s' := by
  unfold redactArg
  split
  · next hs => exact ⟨_, _, rfl, .skipped hs⟩
  · next hs =>
    have hs' := Bool.eq_false_iff.mpr hs
    split
    · next hd => exact ⟨_, _, rfl, .delimiter hs' hd⟩
    · next hd =>
      split
      · next hp =>
        obtain ⟨hdd, hpos⟩ := Bool.and_eq_true_iff.mp hp
        exact ⟨_, _, rfl, .delimited hs' hd hdd hpos⟩
      · next hp =>
        have hins : Inspected tool s arg :=
          ⟨hs', hd, fun hdd => by simpa [hdd] using hp⟩
        split
        · next key hk => exact ⟨_, _, rfl, .key hins hk⟩
        · next hk =>
          rw [attachedEntry_eq]
          cases hc : attachedCut arg tool.parameters.entries with
          | none => exact ⟨_, _, rfl, redactWhole_step ⟨hins, hk, hc⟩⟩
          | some cut =>
            obtain ⟨head, tail⟩ := cut
            by_cases ht : tail = []
            · subst ht
              exact ⟨_, _, rfl, .attachedLast hins hk hc⟩
            · refine ⟨[head ++ redactedEntry], s, ?_, .attached hins hk hc ht⟩
              simp only [Option.map_some, cutEntry, if_neg ht, Option.bind_eq_bind, Option.bind_some, ← hs']

/-! ## The record -/

/-- A declared long flag that is not sensitive, alone or as `--name=value`. -/
def PlainLongFlag (parameters : HashMap ParameterConfig) (arg : Str) : Prop :=
  Str.startsWith arg "--" = true ∧ isSensitive parameters arg = false ∧
    sensitiveKey parameters arg = none ∧
    parameters.containsKey (((Str.splitOnce '=' arg).map Prod.fst).getD arg) = true

/-- Does the argument announce that the next one is a value to hide? -/
def announces (tool : ToolPolicy) (afterDoubleDash : Bool) (arg : Str) : Bool :=
  (sensitiveKey tool.parameters arg).isNone &&
    match attachedCut arg tool.parameters.entries with
    | some (_, tail) => tail.isEmpty
    | none => isSensitive tool.parameters arg ||
        (!afterDoubleDash && Str.startsWith arg "--" && (Str.splitOnce '=' arg).isNone &&
          !tool.parameters.containsKey arg)

/-- What an argument does to the two flags of the loop. -/
def nextState (tool : ToolPolicy) (s : RedactState) (arg : Str) : RedactState :=
  if s.skipNext then { s with skipNext := false }
  else if arg = ['-', '-'] then { s with afterDoubleDash := true }
  else if s.afterDoubleDash && sensitivePositionals tool then s
  else { s with skipNext := announces tool s.afterDoubleDash arg }

/-- No argument up to `--` is a plain long flag, leaving out those that an
argument before them announces as a value. -/
def NoPlainLongFlag (tool : ToolPolicy) : Bool → List Str → Prop
  | _, [] => True
  | true, _ :: rest => NoPlainLongFlag tool false rest
  | false, arg :: rest => arg = ['-', '-'] ∨
      (¬PlainLongFlag tool.parameters arg ∧ NoPlainLongFlag tool (announces tool false arg) rest)

theorem EntryOf.of_cut {head tail : Str} {entries : List (Str × ParameterConfig)}
    (h : attachedCut arg entries = some (head, tail)) : EntryOf arg (head ++ redactedEntry) :=
  .cut ⟨tail, (attachedCut_append h).symm⟩

theorem RedactStep.length_le {entries : List Str} (h : RedactStep tool s arg entries s') : entries.length ≤ 1 := by
  cases h <;> simp

/-- An iteration that does not leave through the branch without a push adds an entry. -/
theorem RedactStep.entry {entries : List Str} (h : RedactStep tool s arg entries s')
    (hp : s.skipNext = true ∨ arg = ['-', '-'] ∨ s.afterDoubleDash = true ∨ ¬PlainLongFlag tool.parameters arg) :
    ∃ e, entries = [e] ∧ EntryOf arg e := by
  have plain : ∀ {key : Str}, LongFlag tool s arg → ((Str.splitOnce '=' arg).map Prod.fst).getD arg = key →
      tool.parameters.containsKey key = false := by
    intro key hl hkey
    refine Bool.eq_false_iff.mpr fun hc => ?_
    rcases hp with h | h | h | h
    · rw [hl.skipNext] at h
      cases h
    · exact hl.ne_delimiter h
    · rw [hl.before] at h
      cases h
    · exact h ⟨hl.long, hl.insensitive, hl.no_key, hkey ▸ hc⟩
  cases h with
  | skipped | delimited | hidden => exact ⟨_, rfl, .hidden⟩
  | delimiter | attachedLast | sensitive | unknownLong | shown => exact ⟨_, rfl, .whole⟩
  | key _ hk => exact ⟨_, rfl, .key (sensitiveKey_some hk).1⟩
  | attached _ _ hc => exact ⟨_, rfl, .of_cut hc⟩
  | unknownKey _ hs => exact ⟨_, rfl, .key ⟨_, (splitOnce_some hs).1.symm⟩⟩
  | plainKey hl hs hc =>
    rw [plain hl (by rw [hs]; rfl)] at hc
    cases hc
  | plainLong hl hs hc =>
    rw [plain hl (by rw [hs]; rfl)] at hc
    cases hc

theorem Inspected.nextState (h : Inspected tool s arg) {b : Bool} (hb : announces tool s.afterDoubleDash arg = b) :
    { s with skipNext := b } = nextState tool s arg := by
  have hd : (s.afterDoubleDash && sensitivePositionals tool) = false := by
    cases hdd : s.afterDoubleDash with
    | false => rfl
    | true => rw [h.delimited hdd]; rfl
  rw [SecureSudoers.nextState, if_neg (by rw [h.skipNext]; decide), if_neg h.ne_delimiter,
    if_neg (by rw [hd]; decide), hb]

theorem Inspected.nextState_same (h : Inspected tool s arg) (hb : announces tool s.afterDoubleDash arg = false) :
    s = SecureSudoers.nextState tool s arg := by
  rw [← h.nextState hb, ← h.skipNext]

theorem Unattached.announces (h : Unattached tool s arg) : announces tool s.afterDoubleDash arg =
    (isSensitive tool.parameters arg || (!s.afterDoubleDash && Str.startsWith arg "--" &&
      (Str.splitOnce '=' arg).isNone && !tool.parameters.containsKey arg)) := by
  simp only [SecureSudoers.announces, h.no_key, h.no_cut, Option.isNone_none, Bool.true_and]

/-- The state an iteration leaves. -/
theorem RedactStep.next {entries : List Str} (h : RedactStep tool s arg entries s') : s' = nextState tool s arg := by
  cases h with
  | skipped h => rw [nextState, if_pos h]
  | delimiter h hd => rw [nextState, if_neg (by rw [h]; decide), if_pos hd]
  | delimited h hne hd hp =>
    rw [nextState, if_neg (by rw [h]; decide), if_neg hne, if_pos (by rw [hd, hp]; rfl)]
  | key hi hk => exact hi.nextState_same (by simp [announces, hk])
  | attached hi hk hc ht => exact hi.nextState_same (by simp [announces, hk, hc, ht])
  | attachedLast hi hk hc => exact hi.nextState (by simp [announces, hk, hc])
  | sensitive hu hsens => exact hu.nextState (by rw [hu.announces, hsens, Bool.true_or])
  | unknownKey hl hsp _ | plainKey hl hsp _ =>
    exact hl.nextState_same (by rw [hl.announces, hl.insensitive, hsp]; simp)
  | unknownLong hl hsp hc =>
    exact hl.nextState (by rw [hl.announces, hl.insensitive, hl.before, hl.long, hsp, hc]; rfl)
  | plainLong hl hsp hc => exact hl.nextState_same (by rw [hl.announces, hl.insensitive, hc]; simp)
  | hidden hu hsens hlong _ _ | shown hu hsens hlong _ =>
    refine hu.nextState_same ?_
    rw [hu.announces, hsens]
    rcases hlong with h | h
    · rw [h]
      rfl
    · rw [h, Bool.and_false]
      rfl

/-- A plain long flag before `--` is dropped. -/
theorem RedactStep.dropped {entries : List Str} (h : RedactStep tool s arg entries s') (hs : s.skipNext = false)
    (hd : s.afterDoubleDash = false) (hne : arg ≠ ['-', '-']) (hp : PlainLongFlag tool.parameters arg) :
    entries = [] := by
  obtain ⟨hlong, hins, hkey, hcont⟩ := hp
  have cut : ∀ {cut : Str × Str}, attachedCut arg tool.parameters.entries ≠ some cut := by
    intro cut hc
    have := (Bool.and_eq_true_iff.mp (attachedCut_isShort hc)).2
    rw [hlong] at this
    cases this
  cases h with
  | skipped h => cases hs.symm.trans h
  | delimiter _ h => exact absurd h hne
  | delimited _ _ h _ => cases hd.symm.trans h
  | key _ hk => cases hkey.symm.trans hk
  | attached _ _ hc _ | attachedLast _ _ hc => exact absurd hc cut
  | sensitive _ hsens => cases hins.symm.trans hsens
  | unknownKey _ hsp hc | unknownLong _ hsp hc =>
    rw [hsp] at hcont
    cases hc.symm.trans hcont
  | plainKey | plainLong => rfl
  | hidden _ _ h _ _ | shown _ _ h _ =>
    rcases h with h | h
    · cases hd.symm.trans h
    · cases hlong.symm.trans h

theorem redactLoop_cons {rest entries : List Str} (h : redactArg tool s arg = some (entries, s')) :
    redactLoop tool s (arg :: rest) = (redactLoop tool s' rest).map (entries ++ ·) := by
  rw [redactLoop, h]
  cases hr : redactLoop tool s' rest <;> simp [hr]

/-- The loop never panics, and never has more entries than arguments. -/
theorem redactLoop_total : ∀ {args : List Str} {s : RedactState},
    ∃ out, redactLoop tool s args = some out ∧ out.length ≤ args.length
  | [], _ => ⟨[], rfl, Nat.le_refl _⟩
  | arg :: rest, s => by
    obtain ⟨entries, s', he, hstep⟩ := @redactArg_step tool s arg
    obtain ⟨tail, ht, hlen⟩ := @redactLoop_total rest s'
    have hone := hstep.length_le
    refine ⟨entries ++ tail, by rw [redactLoop_cons he, ht]; rfl, ?_⟩
    rw [List.length_append, List.length_cons]
    omega

/-- The record shows every argument, in order. -/
def Recorded (tool : ToolPolicy) (s : RedactState) (args : List Str) : Prop :=
  ∃ out, redactLoop tool s args = some out ∧ List.Forall₂ EntryOf args out

theorem Recorded.nil : Recorded tool s [] := ⟨[], rfl, .nil⟩

/-- An iteration that pushes an entry leaves the rest of the record to the rest of the loop. -/
theorem recorded_cons {rest : List Str} {e : Str} (he : redactArg tool s arg = some ([e], s')) (hof : EntryOf arg e) :
    Recorded tool s (arg :: rest) ↔ Recorded tool s' rest := by
  unfold Recorded
  rw [redactLoop_cons he]
  refine ⟨fun ⟨out, ho, hf⟩ => ?_, fun ⟨tail, ht, hf⟩ => ⟨e :: tail, by rw [ht]; rfl, .cons hof hf⟩⟩
  obtain ⟨tail, ht, rfl⟩ := Option.map_eq_some_iff.mp ho
  cases hf with
  | cons _ hrest => exact ⟨tail, ht, hrest⟩

/-- After an iteration without a push the record is short of an entry. -/
theorem not_recorded_dropped {rest : List Str} (he : redactArg tool s arg = some ([], s')) :
    ¬Recorded tool s (arg :: rest) := by
  intro ⟨out, ho, hf⟩
  obtain ⟨tail, ht, hlen⟩ := @redactLoop_total tool rest s'
  rw [redactLoop_cons he, ht] at ho
  cases ho
  have := hf.length_eq
  simp only [List.nil_append, List.length_cons] at this
  omega

theorem recorded_delimited : ∀ {args : List Str} {s : RedactState}, s.afterDoubleDash = true → Recorded tool s args
  | [], _, _ => .nil
  | arg :: rest, s, hd => by
    obtain ⟨entries, s', he, hstep⟩ := @redactArg_step tool s arg
    obtain ⟨e, rfl, hof⟩ := hstep.entry (.inr (.inr (.inl hd)))
    refine (recorded_cons he hof).mpr (recorded_delimited ?_)
    rw [hstep.next, nextState]
    split
    · exact hd
    · split
      · rfl
      · split <;> exact hd

theorem recorded_iff : ∀ {args : List Str} {s : RedactState}, s.afterDoubleDash = false →
    (Recorded tool s args ↔ NoPlainLongFlag tool s.skipNext args)
  | [], s, _ => by
    refine iff_of_true .nil ?_
    cases s.skipNext <;> trivial
  | arg :: rest, s, hd => by
    obtain ⟨entries, s', he, hstep⟩ := @redactArg_step tool s arg
    have hnext := hstep.next
    cases hs : s.skipNext with
    | true =>
      obtain ⟨e, rfl, hof⟩ := hstep.entry (.inl hs)
      rw [nextState, if_pos hs] at hnext
      rw [recorded_cons he hof, recorded_iff (hnext ▸ hd), hnext]
      rfl
    | false =>
      rw [nextState, if_neg (by rw [hs]; decide)] at hnext
      by_cases hdel : arg = ['-', '-']
      · obtain ⟨e, rfl, hof⟩ := hstep.entry (.inr (.inl hdel))
        rw [if_pos hdel] at hnext
        refine iff_of_true ((recorded_cons he hof).mpr (recorded_delimited ?_)) (.inl hdel)
        rw [hnext]
      · rw [if_neg hdel, hd, Bool.false_and, if_neg (by decide)] at hnext
        by_cases hp : PlainLongFlag tool.parameters arg
        · rw [hstep.dropped hs hd hdel hp] at he
          exact iff_of_false (not_recorded_dropped he) fun h => h.elim hdel fun h => h.1 hp
        · obtain ⟨e, rfl, hof⟩ := hstep.entry (.inr (.inr (.inr hp)))
          rw [recorded_cons he hof, recorded_iff (hnext ▸ rfl), hnext, NoPlainLongFlag]
          exact ⟨fun h => .inr ⟨hp, h⟩, fun h => (h.resolve_left hdel).2⟩

/-- **The record of a tool in the policy has an entry for every argument**, in
order and of an allowed form, exactly when no argument the loop looks at before
`--` is a plain long flag. -/
theorem redactArgs_entries_iff {policy : SecureSudoersPolicy} {toolName : Str} {args : List Str}
    (h : policy.tools.get toolName = some tool) :
    (∃ out, redactArgs args policy toolName = some out ∧ List.Forall₂ EntryOf args out) ↔
      NoPlainLongFlag tool false args := by
  rw [redactArgs, h]
  exact recorded_iff rfl

/-- A tool with the Bool `--force`. -/
def forceTool : ToolPolicy := { realBinary := "/bin/rm", parameters := .single "--force" { paramType := .bool } }

def forcePolicy : SecureSudoersPolicy := { globalSettings := {}, tools := .single "rm" forceTool }

/-- `rm --force` leaves nothing in the record. -/
theorem redactArgs_drops_flag :
    ¬∀ (policy : SecureSudoersPolicy) (toolName : Str) (tool : ToolPolicy) (args : List Str),
      policy.tools.get toolName = some tool →
      ∃ out, redactArgs args policy toolName = some out ∧ List.Forall₂ EntryOf args out := by
  intro h
  obtain ⟨out, ho, hf⟩ := h forcePolicy "rm" forceTool ["--force"] (by rfl)
  have : redactArgs ["--force"] forcePolicy "rm" = some [] := by rfl
  rw [this] at ho
  cases ho
  cases hf

/-- `rm -- --force` is recorded. -/
theorem redactArgs_entries_delimited :
    ∃ out, redactArgs ["x", "--", "--force"] forcePolicy "rm" = some out ∧
      List.Forall₂ EntryOf ["x", "--", "--force"] out := by
  have hx : ¬PlainLongFlag forceTool.parameters "x" := fun hp => nomatch hp.1
  exact (redactArgs_entries_iff (by rfl)).mpr (.inr ⟨hx, .inl rfl⟩)

/-! ## Panics -/

/-- A token whose first letter after the dash has several octets, with no `=`
to be cut at: the slice after two octets is inside the letter. -/
def CutsLetter (arg : Str) : Prop := ∃ c rest, arg = '-' :: c :: rest ∧ 1 < c.utf8Size ∧ '=' ∉ arg

theorem cutsLetter_cons {c : Char} {rest : Str} (heq : '=' ∉ '-' :: c :: rest) :
    CutsLetter ('-' :: c :: rest) ↔ 1 < c.utf8Size := by
  constructor
  · rintro ⟨_, _, he, h, -⟩
    cases he
    exact h
  · intro h
    exact ⟨c, rest, rfl, h, heq⟩

/-- The slice after the dash and one more octet. -/
theorem sliceTo_dash {c : Char} {rest : Str} : Str.sliceTo ('-' :: c :: rest) 2 = none ↔ 1 < c.utf8Size := by
  have hdash : ('-' : Char).utf8Size = 1 := by decide
  have hpos := c.utf8Size_pos
  rw [Str.sliceTo, if_pos (by rw [hdash]; omega), hdash, Option.map_eq_none_iff, Str.sliceTo]
  by_cases hc : c.utf8Size ≤ 1
  · have hsub : 1 - c.utf8Size = 0 := by omega
    rw [if_pos hc, hsub]
    cases rest <;> simp [Str.sliceTo] <;> omega
  · rw [if_neg hc]
    exact iff_of_true rfl (by omega)

/-- A token of a dash and a letter: the slice is taken when there is more than
two octets and no second dash. -/
theorem redactUnknown_dash {c : Char} {rest : Str} (heq : '=' ∉ '-' :: c :: rest) :
    redactUnknown ('-' :: c :: rest) = none ↔ 1 < c.utf8Size := by
  have hdash : ('-' : Char).utf8Size = 1 := by decide
  have hstart : Str.startsWith ('-' :: c :: rest) "-" = true := startsWith_dash.mpr ⟨_, rfl⟩
  have hlong : Str.startsWith ('-' :: c :: rest) "--" = (c == '-') := by
    show ('-' == '-' && ('-' == c && true)) = _
    rw [Bool.and_true, beq_self_eq_true, Bool.true_and, Bool.beq_comm]
  have hlen : Str.len ('-' :: c :: rest) = 1 + c.utf8Size + Str.len rest := by
    rw [len_cons, len_cons, hdash]
    omega
  unfold redactUnknown
  rw [splitOnce_none.mpr heq]
  dsimp only
  rw [if_pos hstart, hlong]
  by_cases hone : (!(c == '-') && decide (2 < Str.len ('-' :: c :: rest))) = true
  · rw [if_pos hone, ← sliceTo_dash]
    cases Str.sliceTo ('-' :: c :: rest) 2 <;> simp
  · rw [if_neg hone]
    refine iff_of_false (Option.some_ne_none _) fun hc => hone ?_
    have hne : c ≠ '-' := fun h => by rw [h, hdash] at hc; omega
    rw [beq_eq_false_iff_ne.mpr hne, hlen]
    exact decide_eq_true (by omega)

theorem redactUnknown_eq_none : redactUnknown arg = none ↔ CutsLetter arg := by
  by_cases heq : '=' ∈ arg
  · refine iff_of_false ?_ ?_
    · unfold redactUnknown
      cases hsp : Str.splitOnce '=' arg with
      | some kv => exact Option.some_ne_none _
      | none => exact absurd heq (splitOnce_none.mp hsp)
    · rintro ⟨_, _, _, _, hno⟩
      exact hno heq
  · by_cases hstart : Str.startsWith arg "-" = true
    · obtain ⟨cs, rfl⟩ := startsWith_dash.mp hstart
      cases cs with
      | nil => exact iff_of_false (Option.some_ne_none _) (by rintro ⟨_, _, h, -⟩; cases h)
      | cons c rest => rw [redactUnknown_dash heq, cutsLetter_cons heq]
    · refine iff_of_false ?_ ?_
      · rw [redactUnknown, splitOnce_none.mpr heq]
        dsimp only
        rw [if_neg hstart]
        exact Option.some_ne_none _
      · rintro ⟨c, rest, h, -⟩
        exact hstart (startsWith_dash.mpr ⟨_, h⟩)

theorem mapM_eq_none {α β : Type} {f : α → Option β} : ∀ {l : List α}, l.mapM f = none ↔ ∃ a ∈ l, f a = none
  | [] => by simp
  | a :: l => by
    rw [List.mapM_cons]
    cases hfa : f a with
    | none => simp [hfa]
    | some b =>
      have hrest : (l.mapM f).map (b :: ·) = none ↔ ∃ a ∈ l, f a = none := Option.map_eq_none_iff.trans mapM_eq_none
      simp only [List.mem_cons, exists_eq_or_imp, hfa, reduceCtorEq, false_or, ← hrest]
      cases l.mapM f <;> simp

/-- **When redaction panics**: only for a tool that is not in the policy, when
its keys are shown and an argument is cut inside a letter. -/
theorem redactArgs_eq_none {policy : SecureSudoersPolicy} {toolName : Str} {args : List Str} :
    redactArgs args policy toolName = none ↔ policy.tools.get toolName = none ∧
      policy.globalSettings.unauthorizedAuditMode = .keysOnly ∧ ∃ arg ∈ args, CutsLetter arg := by
  unfold redactArgs
  cases policy.tools.get toolName with
  | some tool =>
    obtain ⟨entries, h⟩ := @redactLoop_total tool args {}
    simp [h]
  | none =>
    cases policy.globalSettings.unauthorizedAuditMode with
    | minimal | full => simp
    | keysOnly => simp [mapM_eq_none, redactUnknown_eq_none]

end SecureSudoers
