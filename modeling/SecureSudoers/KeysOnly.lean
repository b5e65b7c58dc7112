/-
The record of a tool that is not in the policy, when only keys are shown.
`ShowsKey` is what an entry may show of its argument: of a flag with one dash
its first letter, of a long flag its name, of anything else nothing. `=` is
looked for first, wherever it stands, so that a payload with an `=` in it is
shown up to there: `redactArgs_keysOnly_iff`.
-/
import SecureSudoers.Redaction

namespace SecureSudoers

/-- An entry that shows no more of its argument than its key. -/
inductive ShowsKey : Str → Str → Prop
  | dash : ShowsKey ['-'] ['-']
  | letter {c} : c ≠ '-' → c ≠ '=' → ShowsKey ['-', c] ['-', c]
  | attached {c payload} : c ≠ '-' → c = '=' ∨ payload ≠ [] ∧ payload.head? ≠ some '=' →
      ShowsKey ('-' :: c :: payload) ('-' :: c :: redactedEntry)
  | equals {c value} : c ≠ '-' → c ≠ '=' → ShowsKey ('-' :: c :: '=' :: value) ('-' :: c :: '=' :: redactedEntry)
  | long {name} : '=' ∉ name → ShowsKey ('-' :: '-' :: name) ('-' :: '-' :: name)
  | longValue {name value} : '=' ∉ name →
      ShowsKey ('-' :: '-' :: (name ++ '=' :: value)) ('-' :: '-' :: (name ++ '=' :: redactedEntry))
  | value {arg} : Str.startsWith arg "-" = false → ShowsKey arg redactedEntry

/-- Two arguments with the same key. -/
inductive SameKey : Str → Str → Prop
  | same {arg} : SameKey arg arg
  | attached {c v w} : c ≠ '-' → v ≠ [] → v.head? ≠ some '=' → w ≠ [] → w.head? ≠ some '=' →
      SameKey ('-' :: c :: v) ('-' :: c :: w)
  | equals {c v w} : c ≠ '-' → SameKey ('-' :: c :: '=' :: v) ('-' :: c :: '=' :: w)
  | long {name v w} : '=' ∉ name → SameKey ('-' :: '-' :: (name ++ '=' :: v)) ('-' :: '-' :: (name ++ '=' :: w))
  | value {v w} : Str.startsWith v "-" = false → Str.startsWith w "-" = false → SameKey v w

/-- A payload attached to a letter, with an `=` inside it. -/
def ShowsPayload (arg : Str) : Prop :=
  ∃ c d rest, arg = '-' :: c :: d :: rest ∧ c ≠ '-' ∧ c ≠ '=' ∧ d ≠ '=' ∧ '=' ∈ rest

variable {arg : Str}

/-! ## One argument -/

theorem redactUnknown_equals {key value : Str} (h : Str.splitOnce '=' arg = some (key, value)) :
    redactUnknown arg = some (if Str.startsWith key "-" then key ++ "=" ++ redactedEntry else redactedEntry) := by
  unfold redactUnknown
  rw [h]

theorem startsWith_append_dash {key rest : Str} (h : Str.startsWith key "-" = true) :
    Str.startsWith (key ++ rest) "-" = true := by
  obtain ⟨cs, rfl⟩ := startsWith_dash.mp h
  exact startsWith_dash.mpr ⟨cs ++ rest, rfl⟩

theorem redactUnknown_value (h : Str.startsWith arg "-" = false) : redactUnknown arg = some redactedEntry := by
  cases hsp : Str.splitOnce '=' arg with
  | none => simp only [redactUnknown, hsp, h, Bool.false_eq_true, if_false]
  | some kv =>
    obtain ⟨key, value⟩ := kv
    have hkey : Str.startsWith key "-" = false := by
      refine Bool.eq_false_iff.mpr fun hk => ?_
      have harg := @startsWith_append_dash key ('=' :: value) hk
      rw [← (splitOnce_some hsp).1, h] at harg
      cases harg
    rw [redactUnknown_equals hsp, hkey]
    rfl

theorem redactUnknown_long {name : Str} (h : '=' ∉ name) :
    redactUnknown ('-' :: '-' :: name) = some ('-' :: '-' :: name) := by
  have hsp : Str.splitOnce '=' ('-' :: '-' :: name) = none := splitOnce_none.mpr (by simpa using h)
  have hdash : Str.startsWith ('-' :: '-' :: name) "-" = true := startsWith_dash.mpr ⟨_, rfl⟩
  have hlong : Str.startsWith ('-' :: '-' :: name) "--" = true := by cases name <;> rfl
  simp only [redactUnknown, hsp, hdash, hlong, Bool.not_true, Bool.false_and, Bool.false_eq_true, if_true, if_false]

/-- A flag is shown up to its first `=`. -/
theorem redactUnknown_flag_equals {key value : Str} (h : '=' ∉ key) :
    redactUnknown ('-' :: (key ++ '=' :: value)) = some ('-' :: (key ++ '=' :: redactedEntry)) := by
  have hsp : Str.splitOnce '=' ('-' :: (key ++ '=' :: value)) = some ('-' :: key, value) :=
    splitOnce_mid (a := '-' :: key) (by simpa using h)
  rw [redactUnknown_equals hsp, if_pos (startsWith_dash.mpr ⟨key, rfl⟩)]
  simp

/-- A short flag without an `=` is shown up to its letter, if that is one octet. -/
theorem redactUnknown_short {c : Char} {payload : Str} (hc : c ≠ '-') (hone : c.utf8Size = 1)
    (h : '=' ∉ '-' :: c :: payload) : redactUnknown ('-' :: c :: payload) =
      some (if payload = [] then ['-', c] else '-' :: c :: redactedEntry) := by
  have hdash : Str.startsWith ('-' :: c :: payload) "-" = true := startsWith_dash.mpr ⟨_, rfl⟩
  have hlong : Str.startsWith ('-' :: c :: payload) "--" = false := by
    show ('-' == '-' && ('-' == c && true)) = false
    simp [Ne.symm hc]
  have htwo : Str.len ['-', c] = 2 := by
    rw [len_cons, len_cons, hone]
    decide
  have hlen : Str.len ('-' :: c :: payload) = 2 + Str.len payload := by
    rw [← htwo, ← len_append]
    rfl
  have hslice : Str.sliceTo ('-' :: c :: payload) 2 = some ['-', c] := by
    rw [← htwo]
    exact sliceTo_len (s := ['-', c])
  unfold redactUnknown
  simp only [splitOnce_none.mpr h, hdash, hlong, hlen, hslice, if_true, Bool.not_false, Bool.true_and,
    decide_eq_true_eq, Option.bind_eq_bind, Option.bind_some]
  by_cases hp : payload = []
  · subst hp
    rfl
  · have hpos : 2 < 2 + Str.len payload := by
      have := mt len_eq_zero.mp hp
      omega
    rw [if_pos hpos, if_neg hp]
    rfl

theorem showsPayload_cons {c : Char} {payload : Str} : ShowsPayload ('-' :: c :: payload) ↔
    c ≠ '-' ∧ c ≠ '=' ∧ '=' ∈ payload ∧ payload.head? ≠ some '=' := by
  cases payload with
  | nil => simp [ShowsPayload]
  | cons d rest =>
    simp only [ShowsPayload, List.cons.injEq, true_and, List.mem_cons, List.head?_cons, ne_eq, Option.some.injEq]
    constructor
    · rintro ⟨_, _, _, ⟨rfl, rfl, rfl⟩, hc, heq, hd, hrest⟩
      exact ⟨hc, heq, .inr hrest, hd⟩
    · intro ⟨hc, heq, hmem, hd⟩
      exact ⟨c, d, rest, ⟨rfl, rfl, rfl⟩, hc, heq, hd, hmem.resolve_left (Ne.symm hd)⟩

theorem cutsLetter_iff {c : Char} {payload : Str} :
    CutsLetter ('-' :: c :: payload) ↔ 1 < c.utf8Size ∧ c ≠ '=' ∧ '=' ∉ payload := by
  by_cases heq : '=' ∈ '-' :: c :: payload
  · refine iff_of_false (fun h => ?_) fun h => ?_
    · obtain ⟨_, _, _, _, hno⟩ := h
      exact hno heq
    · simp [Ne.symm h.2.1, h.2.2] at heq
  · rw [cutsLetter_cons heq]
    simp only [List.mem_cons, not_or] at heq
    simp [Ne.symm heq.2.1, heq.2.2]

/-- What may be shown of a short flag. -/
theorem ShowsKey.short {c : Char} {payload entry : Str} (hc : c ≠ '-') (h : ShowsKey ('-' :: c :: payload) entry) :
    (payload = [] ∧ c ≠ '=' ∧ entry = ['-', c]) ∨
      ((c = '=' ∨ payload ≠ [] ∧ payload.head? ≠ some '=') ∧ entry = '-' :: c :: redactedEntry) ∨
      (c ≠ '=' ∧ payload.head? = some '=' ∧ entry = '-' :: c :: '=' :: redactedEntry) := by
  generalize harg : '-' :: c :: payload = arg at h
  cases h with
  | dash => simp at harg
  | letter _ heq => simp_all
  | attached _ h => simp_all
  | equals _ heq => simp_all
  | long _ => simp_all
  | longValue _ => simp_all
  | value h =>
    rw [← harg] at h
    cases h

/-- What a flag with an `=` shows of its payload is no key. -/
theorem not_showsKey_payload {c d : Char} {name value : Str} (hc : c ≠ '-') (hd : d ≠ '=') :
    ¬ShowsKey ('-' :: c :: d :: (name ++ '=' :: value)) ('-' :: c :: d :: (name ++ '=' :: redactedEntry)) := by
  have hno : '=' ∉ redactedEntry := by decide
  intro h
  rcases h.short hc with ⟨hnil, -⟩ | ⟨-, h⟩ | ⟨-, hhead, -⟩
  · cases hnil
  · -- the entry has an `=` of the argument's
    simp only [List.cons.injEq, true_and] at h
    exact hno (h ▸ by simp)
  · exact hd (Option.some.inj hhead)

theorem long_showsKey {name : Str} :
    ∃ entry, redactUnknown ('-' :: '-' :: name) = some entry ∧ ShowsKey ('-' :: '-' :: name) entry := by
  by_cases h : '=' ∈ name
  · obtain ⟨key, value, rfl, hkey⟩ := exists_splitOnce h
    exact ⟨_, @redactUnknown_flag_equals ('-' :: key) _ (by simpa using hkey), .longValue hkey⟩
  · exact ⟨_, redactUnknown_long h, .long h⟩

theorem short_showsKey {c : Char} {payload : Str} (hc : c ≠ '-') :
    (∃ entry, redactUnknown ('-' :: c :: payload) = some entry ∧ ShowsKey ('-' :: c :: payload) entry) ↔
      ¬ShowsPayload ('-' :: c :: payload) ∧ ¬CutsLetter ('-' :: c :: payload) := by
  rw [showsPayload_cons, cutsLetter_iff]
  by_cases heq : c = '='
  · subst heq
    refine iff_of_true ⟨_, @redactUnknown_flag_equals [] _ (by simp), .attached hc (.inl rfl)⟩ (by simp)
  by_cases h : '=' ∈ payload
  · obtain ⟨name, value, rfl, hname⟩ := exists_splitOnce h
    have hkey : '=' ∉ c :: name := by simp [hname, Ne.symm heq]
    have hentry := @redactUnknown_flag_equals _ value hkey
    cases name with
    | nil => exact iff_of_true ⟨_, hentry, .equals hc heq⟩ (by simp)
    | cons d name =>
      have hd : d ≠ '=' := fun h => hname (h ▸ List.mem_cons_self)
      refine iff_of_false (fun ⟨entry, he, hshows⟩ => ?_) (by simp [hc, heq, hd])
      cases hentry.symm.trans he
      exact not_showsKey_payload hc hd hshows
  · have hno : '=' ∉ '-' :: c :: payload := by simp [h, Ne.symm heq]
    by_cases hone : 1 < c.utf8Size
    · refine iff_of_false (fun ⟨entry, he, _⟩ => ?_) fun h' => h'.2 ⟨hone, heq, h⟩
      rw [(redactUnknown_dash hno).mpr hone] at he
      cases he
    · have hsize : c.utf8Size = 1 := by
        have := c.utf8Size_pos
        omega
      refine iff_of_true ⟨_, redactUnknown_short hc hsize hno, ?_⟩ (by simp [h, hone])
      by_cases hp : payload = []
      · rw [if_pos hp, hp]
        exact .letter hc heq
      · rw [if_neg hp]
        exact .attached hc (.inr ⟨hp, fun hhead => h (List.mem_of_head? hhead)⟩)

/-- **One argument is shown by its key alone** unless it has a payload with an
`=` inside, or is cut inside its letter. -/
theorem redactUnknown_showsKey :
    (∃ entry, redactUnknown arg = some entry ∧ ShowsKey arg entry) ↔ ¬ShowsPayload arg ∧ ¬CutsLetter arg := by
  by_cases hdash : Str.startsWith arg "-" = true
  · obtain ⟨cs, rfl⟩ := startsWith_dash.mp hdash
    cases cs with
    | nil => exact iff_of_true ⟨_, rfl, .dash⟩ (by simp [ShowsPayload, CutsLetter])
    | cons c payload =>
      by_cases hc : c = '-'
      · subst hc
        have hone : ('-' : Char).utf8Size = 1 := by decide
        exact iff_of_true long_showsKey (by simp [showsPayload_cons, cutsLetter_iff, hone])
      · exact short_showsKey hc
  · have hvalue := Bool.eq_false_iff.mpr hdash
    refine iff_of_true ⟨_, redactUnknown_value hvalue, .value hvalue⟩ ⟨?_, ?_⟩
    · rintro ⟨c, d, rest, rfl, -⟩
      exact hdash (startsWith_dash.mpr ⟨_, rfl⟩)
    · rintro ⟨c, rest, rfl, -⟩
      exact hdash (startsWith_dash.mpr ⟨_, rfl⟩)

/-- What may be shown of a long flag. -/
theorem ShowsKey.longFlag {name entry : Str} (h : ShowsKey ('-' :: '-' :: name) entry) :
    entry = match Str.splitOnce '=' name with
      | some (key, _) => '-' :: '-' :: (key ++ '=' :: redactedEntry)
      | none => '-' :: '-' :: name := by
  generalize harg : '-' :: '-' :: name = arg at h
  cases h with
  | dash => simp at harg
  | letter hc | attached hc | equals hc => exact absurd (List.cons.inj (List.cons.inj harg).2).1.symm hc
  | long h =>
    obtain rfl : name = _ := by simpa using harg
    rw [splitOnce_none.mpr h]
  | longValue h =>
    obtain rfl : name = _ := by simpa using harg
    rw [splitOnce_mid h]
  | value h =>
    rw [← harg] at h
    cases h

theorem ShowsKey.separate {entry : Str} (harg : Str.startsWith arg "-" = false) (h : ShowsKey arg entry) :
    entry = redactedEntry := by
  cases h with
  | value => rfl
  | dash | letter | attached | equals | long | longValue => cases harg

theorem ShowsKey.dash_eq {entry : Str} (h : ShowsKey ['-'] entry) : entry = ['-'] := by
  cases h with
  | dash => rfl
  | value h => cases h

/-- Short flags that agree on the letter, and on whether there is a payload and whether it starts with `=`. -/
theorem ShowsKey.short_unique {c : Char} {v w entry entry' : Str} (hc : c ≠ '-') (hnil : v = [] ↔ w = [])
    (hhead : v.head? = some '=' ↔ w.head? = some '=') (h : ShowsKey ('-' :: c :: v) entry)
    (h' : ShowsKey ('-' :: c :: w) entry') : entry = entry' := by
  rcases h.short hc with ⟨hv, hne, rfl⟩ | ⟨hv, rfl⟩ | ⟨hne, hv, rfl⟩ <;>
    rcases h'.short hc with ⟨hw, hne', rfl⟩ | ⟨hw, rfl⟩ | ⟨hne', hw, rfl⟩ <;> simp_all

/-- **Arguments with the same key are shown alike.** -/
theorem ShowsKey.unique {arg' entry entry' : Str} (hkey : SameKey arg arg') (h : ShowsKey arg entry)
    (h' : ShowsKey arg' entry') : entry = entry' := by
  cases hkey with
  | same =>
    by_cases hdash : Str.startsWith arg "-" = true
    · obtain ⟨cs, rfl⟩ := startsWith_dash.mp hdash
      cases cs with
      | nil => exact h.dash_eq.trans h'.dash_eq.symm
      | cons c payload =>
        by_cases hc : c = '-'
        · subst hc
          exact h.longFlag.trans h'.longFlag.symm
        · exact h.short_unique hc Iff.rfl Iff.rfl h'
    · have hvalue := Bool.eq_false_iff.mpr hdash
      exact (h.separate hvalue).trans (h'.separate hvalue).symm
  | attached hc hv hv' hw hw' => exact h.short_unique hc (iff_of_false hv hw) (iff_of_false hv' hw') h'
  | equals hc => exact h.short_unique hc (by simp) (by simp) h'
  | long hname => rw [h.longFlag, h'.longFlag, splitOnce_mid hname, splitOnce_mid hname]
  | value hv hw => exact (h.separate hv).trans (h'.separate hw).symm

/-! ## The record -/

/-- A partial function along a list, and what holds of its values. -/
theorem mapM_forall₂ {α β : Type} {f : α → Option β} {R : α → β → Prop} : ∀ {l : List α},
    (∃ out, l.mapM f = some out ∧ List.Forall₂ R l out) ↔ ∀ a ∈ l, ∃ b, f a = some b ∧ R a b
  | [] => by simp
  | a :: l => by
    rw [List.forall_mem_cons, ← mapM_forall₂, List.mapM_cons]
    constructor
    · rintro ⟨out, ho, hf⟩
      obtain ⟨b, hb, ho⟩ := Option.bind_eq_some_iff.mp ho
      obtain ⟨tail, ht, ho⟩ := Option.bind_eq_some_iff.mp ho
      cases ho
      cases hf with
      | cons hab hrest => exact ⟨⟨b, hb, hab⟩, tail, ht, hrest⟩
    · rintro ⟨⟨b, hb, hab⟩, tail, ht, hrest⟩
      exact ⟨b :: tail, by simp [hb, ht], .cons hab hrest⟩

/-- Every argument is shown by its key alone. -/
def KeysShown (args : List Str) (policy : SecureSudoersPolicy) (toolName : Str) : Prop :=
  ∃ out, redactArgs args policy toolName = some out ∧ List.Forall₂ ShowsKey args out

theorem showsKey_unique_list : ∀ {args args' out out' : List Str}, List.Forall₂ SameKey args args' →
    List.Forall₂ ShowsKey args out → List.Forall₂ ShowsKey args' out' → out = out'
  | [], [], _, _, .nil, .nil, .nil => rfl
  | _ :: _, _ :: _, _ :: _, _ :: _, .cons hkey hkeys, .cons h hs, .cons h' hs' => by
    rw [h.unique hkey h', showsKey_unique_list hkeys hs hs']

theorem keysShown_iff {policy : SecureSudoersPolicy} {toolName : Str} {args : List Str}
    (hunknown : policy.tools.get toolName = none) (hmode : policy.globalSettings.unauthorizedAuditMode = .keysOnly) :
    KeysShown args policy toolName ↔ ∀ arg ∈ args, ¬ShowsPayload arg ∧ ¬CutsLetter arg := by
  simp only [KeysShown, redactArgs, hunknown, hmode, mapM_forall₂, redactUnknown_showsKey]

/-- **The record shows the keys and nothing else exactly when no argument has a
payload with an `=` inside**, and none is cut inside its letter; two command
lines of this kind with the same keys have the same record. -/
theorem redactArgs_keysOnly_iff {policy : SecureSudoersPolicy} {toolName : Str}
    (hunknown : policy.tools.get toolName = none) (hmode : policy.globalSettings.unauthorizedAuditMode = .keysOnly) :
    (∀ args, KeysShown args policy toolName ↔ ∀ arg ∈ args, ¬ShowsPayload arg ∧ ¬CutsLetter arg) ∧
      ∀ args args', List.Forall₂ SameKey args args' → (∀ arg ∈ args, ¬ShowsPayload arg ∧ ¬CutsLetter arg) →
        (∀ arg ∈ args', ¬ShowsPayload arg ∧ ¬CutsLetter arg) →
        redactArgs args policy toolName = redactArgs args' policy toolName := by
  refine ⟨fun args => keysShown_iff hunknown hmode, fun args args' hkeys h h' => ?_⟩
  obtain ⟨out, ho, hf⟩ := (keysShown_iff hunknown hmode).mpr h
  obtain ⟨out', ho', hf'⟩ := (keysShown_iff hunknown hmode).mpr h'
  rw [ho, ho', showsKey_unique_list hkeys hf hf']

/-- A policy without tools that shows the keys of an unknown tool's arguments. -/
def keysOnlyPolicy : SecureSudoersPolicy := { globalSettings := { unauthorizedAuditMode := .keysOnly }, tools := .empty }

theorem redactArgs_keysOnly_password :
    (∀ args, KeysShown args keysOnlyPolicy "db" ↔ ∀ arg ∈ args, ¬ShowsPayload arg ∧ ¬CutsLetter arg) ∧
      ∀ args args', List.Forall₂ SameKey args args' → (∀ arg ∈ args, ¬ShowsPayload arg ∧ ¬CutsLetter arg) →
        (∀ arg ∈ args', ¬ShowsPayload arg ∧ ¬CutsLetter arg) →
        redactArgs args keysOnlyPolicy "db" = redactArgs args' keysOnlyPolicy "db" :=
  redactArgs_keysOnly_iff rfl rfl

/-- `-pse=cret` is shown as `-pse=[REDACTED]`. -/
theorem not_keysShown_payload : ¬∀ (policy : SecureSudoersPolicy) (toolName : Str) (args : List Str),
    policy.tools.get toolName = none → policy.globalSettings.unauthorizedAuditMode = .keysOnly →
    KeysShown args policy toolName := by
  intro h
  have hpayload : ShowsPayload "-pse=cret" :=
    ⟨'p', 's', "e=cret".toList, rfl, by decide, by decide, by decide, by decide⟩
  exact ((keysShown_iff rfl rfl).mp (h keysOnlyPolicy "db" ["-pse=cret"] rfl rfl) _ (by simp)).1 hpayload

end SecureSudoers
