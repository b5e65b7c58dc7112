/-
A sensitive value in a token of its own, on a command line that may be denied.
`flagDue` reads the tokens left to right as the validator does where it accepts
them: the verb, flags that take the next token, everything else alone. The
redactor hides the token after a sensitive flag only if it does not hide the
flag itself, which a token before it may make it do:
`separateValuesMasked_iff`.
-/
import SecureSudoers.RedactionSecrecy

namespace SecureSudoers

variable {tool : ToolPolicy} {s : RedactState}

/-! ## One entry of the record -/

theorem stateAfter_append {a b : List Str} : stateAfter tool s (a ++ b) = stateAfter tool (stateAfter tool s a) b :=
  List.foldl_append

/-- The record of arguments in two parts. -/
theorem redactLoop_append {b : List Str} : ∀ {a : List Str} {s : RedactState}, ∃ out rest,
    redactLoop tool s a = some out ∧ redactLoop tool (stateAfter tool s a) b = some rest ∧
      redactLoop tool s (a ++ b) = some (out ++ rest)
  | [], s => by
    obtain ⟨rest, hr, -⟩ := @redactLoop_total tool b s
    exact ⟨[], rest, rfl, hr, hr⟩
  | arg :: a, s => by
    obtain ⟨entries, s', he, hstep⟩ := @redactArg_step tool s arg
    obtain ⟨out, rest, ho, hr, hboth⟩ := @redactLoop_append b a s'
    rw [hstep.next] at hr
    refine ⟨entries ++ out, rest, ?_, hr, ?_⟩
    · rw [redactLoop_cons he, ho, Option.map_some]
    · rw [List.cons_append, redactLoop_cons he, hboth, Option.map_some, List.append_assoc]

/-- The entry of `arg`, between the arguments before and after it, is `[REDACTED]`. -/
def MaskedAt (policy : SecureSudoersPolicy) (toolName : Str) (before : List Str) (arg : Str) (after : List Str) : Prop :=
  ∃ out rest, redactArgs before policy toolName = some out ∧
    redactArgs (before ++ [arg]) policy toolName = some (out ++ [redactedEntry]) ∧
    redactArgs (before ++ arg :: after) policy toolName = some (out ++ redactedEntry :: rest)

theorem maskedAt_iff {policy : SecureSudoersPolicy} {toolName arg : Str} {before after : List Str}
    (ht : policy.tools.get toolName = some tool) : MaskedAt policy toolName before arg after ↔
      ∃ s', redactArg tool (stateAfter tool {} before) arg = some ([redactedEntry], s') := by
  obtain ⟨entries, s', he, -⟩ := @redactArg_step tool (stateAfter tool {} before) arg
  obtain ⟨out, one, ho, hone, hsnoc⟩ := @redactLoop_append tool [arg] before {}
  obtain ⟨out', more, ho', hmore, hall⟩ := @redactLoop_append tool (arg :: after) before {}
  obtain ⟨rest, hrest, -⟩ := @redactLoop_total tool after s'
  obtain rfl : out = out' := Option.some.inj (ho.symm.trans ho')
  rw [redactLoop_cons he, redactLoop, Option.map_some, List.append_nil, Option.some.injEq] at hone
  rw [redactLoop_cons he, hrest, Option.map_some, Option.some.injEq] at hmore
  subst hone hmore
  simp only [MaskedAt, redactArgs, ht, ho, hsnoc, hall, he]
  constructor
  · rintro ⟨_, _, hout, hentry, -⟩
    cases hout
    exact ⟨s', by rw [List.append_cancel_left (Option.some.inj hentry)]⟩
  · rintro ⟨_, hentry⟩
    cases hentry
    exact ⟨out, rest, rfl, rfl, rfl⟩

theorem sensitiveKey_redacted {parameters : HashMap ParameterConfig} : sensitiveKey parameters redactedEntry = none := by
  have hno : Str.splitOnce '=' redactedEntry = none := by decide
  rw [sensitiveKey, hno]

theorem key_ne_redacted {key : Str} : key ++ "=" ++ redactedEntry ≠ redactedEntry := by
  intro h
  have hlen := congrArg List.length h
  simp only [List.length_append] at hlen
  have : ("=".toList).length = 1 := by decide
  omega

/-- The part of an argument up to a cut starts with its dash. -/
theorem attachedCut_ne_redacted {arg head tail rest : Str} {entries : List (Str × ParameterConfig)}
    (h : attachedCut arg entries = some (head, tail)) : head ++ rest ≠ redactedEntry := by
  obtain ⟨flag, -, hf⟩ := List.exists_of_findSome?_eq_some h
  obtain ⟨cs, rfl, -⟩ := cutAt_dash hf
  exact fun he => absurd (List.cons.inj he).1 (by decide)

theorem attachedCut_redacted {entries : List (Str × ParameterConfig)} : attachedCut redactedEntry entries = none := by
  cases h : attachedCut redactedEntry entries with
  | none => rfl
  | some cut =>
    have hshort := attachedCut_isShort h
    have hno : isShort redactedEntry = false := by decide
    rw [hno] at hshort
    cases hshort

theorem isKnownFlagArgument_dash {parameters : HashMap ParameterConfig} {arg : Str}
    (h : isKnownFlagArgument arg parameters = true) : Str.startsWith arg "-" = true := by
  unfold isKnownFlagArgument at h
  split at h
  · next hlong =>
    obtain ⟨t, rfl⟩ := List.isPrefixOf_iff_prefix.mp hlong
    exact startsWith_dash.mpr ⟨_, rfl⟩
  · split at h
    · cases h
    · next hno =>
      simp only [Bool.or_eq_true, not_or, Bool.not_eq_true', Bool.not_eq_false] at hno
      exact hno.1

/-- An argument the loop looks at, with no `--` before it, is hidden when it is
a sensitive positional or the marker itself. -/
theorem redactArg_redacted {value : Str} : (∃ s', redactArg tool {} value = some ([redactedEntry], s')) ↔
    value = redactedEntry ∨ HiddenText tool {} value := by
  obtain ⟨entries, s', he, hstep⟩ := @redactArg_step tool {} value
  rw [he]
  simp only [Option.some.injEq, Prod.mk.injEq, exists_and_left, exists_eq', and_true]
  constructor
  · intro h
    cases hstep with
    | skipped hskip => cases hskip
    | delimiter | sensitive | shown | unknownLong | attachedLast => exact .inl (List.singleton_inj.mp h)
    | delimited _ _ hd => cases hd
    | key | unknownKey => exact absurd (List.singleton_inj.mp h) key_ne_redacted
    | attached _ _ hc => exact absurd (List.singleton_inj.mp h) (attachedCut_ne_redacted hc)
    | plainKey | plainLong => cases h
    | hidden hu hsens hlong hpos hknown =>
      refine .inr (.inr ⟨hu.ne_delimiter, hpos, .inr ⟨hu.no_key, hu.no_cut, hsens, hlong.resolve_left (by simp), ?_⟩⟩)
      refine Bool.eq_false_iff.mpr fun hk => ?_
      rw [isKnownFlagArgument_dash hk, hk] at hknown
      cases hknown
  · rintro (rfl | h)
    · have hlong : Str.startsWith redactedEntry "--" = false := by decide
      cases hstep with
      | skipped | delimiter | sensitive | shown | delimited | hidden | attachedLast => rfl
      | key _ hk => cases sensitiveKey_redacted.symm.trans hk
      | attached _ _ hc => cases attachedCut_redacted.symm.trans hc
      | unknownKey hl | plainKey hl | unknownLong hl | plainLong hl => cases hlong.symm.trans hl.long
    · cases he.symm.trans h.redactArg
      rfl

/-! ## The value after a flag -/

/-- A token, no `--` before it, that is read as a flag and is the name of a
sensitive parameter with a value. -/
structure SensitiveFlagAt (tool : ToolPolicy) (before : List Str) (name : Str) : Prop where
  due : flagDue tool before = true
  not_delimited : ['-', '-'] ∉ before
  dash : Str.startsWith name "-" = true
  ne_dash : name ≠ ['-']
  ne_delimiter : name ≠ ['-', '-']
  sensitive : ∃ config, tool.parameters.get name = some config ∧ config.sensitive = true ∧ config.paramType ≠ .bool

theorem stateAfter_delimited : ∀ {before : List Str} {s : RedactState}, ['-', '-'] ∉ before →
    (stateAfter tool s before).afterDoubleDash = s.afterDoubleDash
  | [], _, _ => rfl
  | arg :: before, s, h => by
    rw [List.mem_cons, not_or] at h
    show (stateAfter tool (nextState tool s arg) before).afterDoubleDash = s.afterDoubleDash
    rw [stateAfter_delimited h.2, nextState, if_neg (Ne.symm h.1)]
    split
    · rfl
    · split <;> rfl

/-- The token after a sensitive flag is hidden: the flag is looked at and
announces a value, or the token is hidden in any case. -/
theorem maskedAt_flag {policy : SecureSudoersPolicy} {toolName name value : Str} {before after : List Str}
    (ht : policy.tools.get toolName = some tool) (h : SensitiveFlagAt tool before name) :
    MaskedAt policy toolName (before ++ [name]) value after ↔
      ((stateAfter tool {} before).skipNext = false ∧ announces tool false name = true) ∨
        value = redactedEntry ∨ HiddenText tool {} value := by
  rw [maskedAt_iff ht, stateAfter_append]
  have hdd : (stateAfter tool {} before).afterDoubleDash = false := stateAfter_delimited h.not_delimited
  generalize stateAfter tool {} before = s at hdd
  obtain ⟨skipNext, afterDoubleDash⟩ := s
  subst hdd
  have hnext : stateAfter tool ⟨skipNext, false⟩ [name] = { skipNext := !skipNext && announces tool false name } := by
    show nextState tool ⟨skipNext, false⟩ name = _
    cases skipNext with
    | true => rfl
    | false => rw [nextState, if_neg (by decide), if_neg h.ne_delimiter, Bool.false_and, if_neg (by decide)]; rfl
  rw [hnext]
  cases hskip : !skipNext && announces tool false name with
  | true =>
    have hleft : skipNext = false ∧ announces tool false name = true := by simpa using hskip
    exact iff_of_true ⟨_, HiddenText.redactArg (.inl rfl)⟩ (.inl hleft)
  | false =>
    have hleft : ¬(skipNext = false ∧ announces tool false name = true) := by
      rintro ⟨rfl, ha⟩
      rw [ha] at hskip
      cases hskip
    rw [or_iff_right hleft]
    exact redactArg_redacted

/-- Every value in a token of its own after a sensitive flag is hidden. -/
def SeparateValuesMasked (tool : ToolPolicy) (policy : SecureSudoersPolicy) (toolName : Str) (args : List Str) : Prop :=
  ∀ before name value after, args = before ++ name :: value :: after → SensitiveFlagAt tool before name →
    MaskedAt policy toolName (before ++ [name]) value after

/-- **Every separate value of a sensitive flag is hidden exactly when the
redactor looks at each such flag and takes it to announce a value**, but for
values that are hidden in any case. -/
theorem separateValuesMasked_iff {policy : SecureSudoersPolicy} {toolName : Str} {args : List Str}
    (ht : policy.tools.get toolName = some tool) : SeparateValuesMasked tool policy toolName args ↔
      ∀ before name value after, args = before ++ name :: value :: after → SensitiveFlagAt tool before name →
        ((stateAfter tool {} before).skipNext = false ∧ announces tool false name = true) ∨
          value = redactedEntry ∨ HiddenText tool {} value := by
  constructor
  · intro h before name value after hargs hflag
    exact (maskedAt_flag ht hflag).mp (h before name value after hargs hflag)
  · intro h before name value after hargs hflag
    exact (maskedAt_flag ht hflag).mpr (h before name value after hargs hflag)

/-- `login --secret hunter2`. -/
theorem separateValuesMasked_login : SeparateValuesMasked loginTool loginPolicy "login" ["--secret", "hunter2"] := by
  refine (separateValuesMasked_iff rfl).mpr fun before name value after hargs hflag => ?_
  match before, hargs with
  | [], hargs =>
    cases hargs
    exact .inl (by decide)
  | [_], hargs => simp at hargs
  | _ :: _ :: _, hargs => simp at hargs

/-- `login --unknown --secret hunter2`: the flag is hidden as the value of `--unknown`. -/
theorem not_separateValuesMasked_unknown :
    ¬∀ (policy : SecureSudoersPolicy) (toolName : Str) (tool : ToolPolicy) (args : List Str),
      policy.tools.get toolName = some tool → SeparateValuesMasked tool policy toolName args := by
  intro h
  have hflag : SensitiveFlagAt loginTool ["--unknown"] "--secret" :=
    ⟨by decide, by decide, by decide, by decide, by decide, _, rfl, rfl, by decide⟩
  obtain ⟨out, _, ho, hentry, -⟩ := h loginPolicy "login" loginTool ["--unknown", "--secret", "hunter2"] rfl
    ["--unknown"] "--secret" "hunter2" [] rfl hflag
  cases ho
  exact absurd hentry (by decide)

end SecureSudoers
