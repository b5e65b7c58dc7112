/-
The record and the order in which the tool's parameters are enumerated. The
search for an attached value takes the first sensitive short flag whose letter
is in the argument, and the map enumerates its flags in any order: where two of
their letters are in one argument, the order decides where it is cut.

`OneRecord` says that the order decides nothing that shows: every argument the
loop looks at has the same entry wherever it may be cut. Two cuts never have the
same entry but for an argument that ends in the marker itself, and after it the
next argument is hidden in some orders and looked at in the others.
-/
import Mathlib.Data.List.Perm.Basic
import SecureSudoers.Redaction

namespace SecureSudoers

/-! ## Enumerations -/

namespace HashMap

variable {V : Type} {p q : HashMap V}

theorem get_perm (h : p.entries.Perm q.entries) (k : Str) : p.get k = q.get k := by
  ext v
  rw [get_eq_some, get_eq_some, h.mem_iff]

theorem containsKey_perm (h : p.entries.Perm q.entries) (k : Str) : p.containsKey k = q.containsKey k := by
  rw [containsKey, containsKey, get_perm h]

end HashMap

/-- An order of the tool's parameters. -/
def Enumeration (tool : ToolPolicy) : Type := { p : HashMap ParameterConfig // p.entries.Perm tool.parameters.entries }

/-- The tool with its parameters in another order. -/
def ToolPolicy.enumerated (tool : ToolPolicy) (p : Enumeration tool) : ToolPolicy := { tool with parameters := p.1 }

variable {tool : ToolPolicy} {p p' : Enumeration tool} {s s' : RedactState} {arg : Str}

theorem isSensitive_enumerated (p : Enumeration tool) (name : Str) :
    isSensitive (tool.enumerated p).parameters name = isSensitive tool.parameters name := by
  rw [isSensitive, isSensitive, ToolPolicy.enumerated, HashMap.get_perm p.2]

theorem sensitiveKey_enumerated (p : Enumeration tool) :
    sensitiveKey (tool.enumerated p).parameters arg = sensitiveKey tool.parameters arg := by
  simp only [sensitiveKey, isSensitive_enumerated]

theorem knownCluster_enumerated (p : Enumeration tool) : ∀ {cs : List Char},
    knownCluster (tool.enumerated p).parameters cs = knownCluster tool.parameters cs
  | [] => rfl
  | c :: cs => by
    have hget : (tool.enumerated p).parameters.get ['-', c] = tool.parameters.get ['-', c] := HashMap.get_perm p.2 _
    rw [knownCluster, knownCluster, hget, knownCluster_enumerated]

theorem containsKey_enumerated (p : Enumeration tool) (k : Str) :
    (tool.enumerated p).parameters.containsKey k = tool.parameters.containsKey k := HashMap.containsKey_perm p.2 k

theorem isKnownFlagArgument_enumerated (p : Enumeration tool) :
    isKnownFlagArgument arg (tool.enumerated p).parameters = isKnownFlagArgument arg tool.parameters := by
  unfold isKnownFlagArgument
  rw [knownCluster_enumerated, containsKey_enumerated]
  cases Str.splitOnce '=' arg with
  | none => rfl
  | some kv => simp only [containsKey_enumerated]

theorem redactWhole_enumerated (p : Enumeration tool) : redactWhole (tool.enumerated p) s arg = redactWhole tool s arg := by
  have hpositional : sensitivePositionals (tool.enumerated p) = sensitivePositionals tool := rfl
  unfold redactWhole
  rw [isSensitive_enumerated, isKnownFlagArgument_enumerated, hpositional, containsKey_enumerated]
  cases Str.splitOnce '=' arg with
  | none => rfl
  | some kv => simp only [containsKey_enumerated]

/-! ## Cuts -/

/-- What each flag that cuts the argument would show of it, and whether the next one would be skipped. -/
def cuts (tool : ToolPolicy) (arg : Str) : List (Str × Bool) :=
  tool.parameters.entries.filterMap fun flag => (cutAt arg flag).map (cutEntry arg)

/-- Every order takes one of the cuts, if there is one. -/
theorem attachedCut_enumerated (p : Enumeration tool) :
    match attachedCut arg (tool.enumerated p).parameters.entries with
    | some cut => cutEntry arg cut ∈ cuts tool arg
    | none => cuts tool arg = [] := by
  split
  · next cut h =>
    obtain ⟨flag, hmem, hcut⟩ := List.exists_of_findSome?_eq_some h
    exact List.mem_filterMap.mpr ⟨flag, p.2.mem_iff.mp hmem, by rw [hcut]; rfl⟩
  · next h =>
    refine List.filterMap_eq_nil_iff.mpr fun flag hmem => ?_
    rw [List.findSome?_eq_none_iff.mp h flag (p.2.mem_iff.mpr hmem)]
    rfl

/-- Every cut is the one some order takes. -/
theorem exists_enumeration {c : Str × Bool} (h : c ∈ cuts tool arg) :
    ∃ p : Enumeration tool, ∃ cut, attachedCut arg (tool.enumerated p).parameters.entries = some cut ∧
      cutEntry arg cut = c := by
  obtain ⟨flag, hmem, hc⟩ := List.mem_filterMap.mp h
  obtain ⟨cut, hcut, rfl⟩ := Option.map_eq_some_iff.mp hc
  obtain ⟨before, after, hsplit⟩ := List.append_of_mem hmem
  have hperm : (flag :: (before ++ after)).Perm tool.parameters.entries := hsplit ▸ List.perm_middle.symm
  refine ⟨⟨⟨flag :: (before ++ after), (hperm.map Prod.fst).nodup_iff.mpr tool.parameters.nodup⟩, hperm⟩, cut, ?_, rfl⟩
  show (flag :: (before ++ after)).findSome? (cutAt arg) = some cut
  rw [List.findSome?_cons, hcut]

/-- An argument that is cut does not look like one that is hidden. -/
theorem cuts_ne_redacted {c : Str × Bool} (h : c ∈ cuts tool arg) : c.1 ≠ redactedEntry := by
  have hdash : ∀ cs, '-' :: cs ≠ redactedEntry := fun cs he => absurd (List.cons.inj he).1 (by decide)
  obtain ⟨flag, -, hc⟩ := List.mem_filterMap.mp h
  obtain ⟨⟨head, tail⟩, hcut, rfl⟩ := Option.map_eq_some_iff.mp hc
  obtain ⟨cs, rfl, rfl⟩ := cutAt_dash hcut
  unfold cutEntry
  dsimp only
  split
  · exact hdash _
  · exact hdash _

/-! ## One iteration -/

/-- An iteration that does not get as far as the search for a cut. -/
def beforeSearch (tool : ToolPolicy) (s : RedactState) (arg : Str) : Option (List Str × RedactState) :=
  if s.skipNext then some ([redactedEntry], { s with skipNext := false })
  else if arg = ['-', '-'] then some ([arg], { s with afterDoubleDash := true })
  else if s.afterDoubleDash && sensitivePositionals tool then some ([redactedEntry], s)
  else (sensitiveKey tool.parameters arg).map fun key => ([key ++ "=" ++ redactedEntry], s)

/-- **What an iteration may do**, over all orders. -/
inductive Outcome (tool : ToolPolicy) (s : RedactState) (arg : Str) : List Str → RedactState → Prop
  | before {entries s'} : beforeSearch tool s arg = some (entries, s') → Outcome tool s arg entries s'
  | cut {entry skipNext} : beforeSearch tool s arg = none → (entry, skipNext) ∈ cuts tool arg →
      Outcome tool s arg [entry] { s with skipNext }
  | whole : beforeSearch tool s arg = none → cuts tool arg = [] →
      Outcome tool s arg (redactWhole tool s arg).1 (redactWhole tool s arg).2

theorem redactArg_enumerated (p : Enumeration tool) :
    redactArg (tool.enumerated p) s arg = some (match beforeSearch tool s arg with
      | some done => done
      | none => match attachedCut arg (tool.enumerated p).parameters.entries with
        | some cut => ([(cutEntry arg cut).1], { s with skipNext := (cutEntry arg cut).2 })
        | none => redactWhole tool s arg) := by
  have hpositional : sensitivePositionals (tool.enumerated p) = sensitivePositionals tool := rfl
  unfold redactArg beforeSearch
  rw [sensitiveKey_enumerated, attachedEntry_eq, hpositional]
  split
  · rfl
  · split
    · rfl
    · split
      · rfl
      · cases sensitiveKey tool.parameters arg with
        | some key => rfl
        | none =>
          cases attachedCut arg (tool.enumerated p).parameters.entries with
          | none => rw [redactWhole_enumerated]; rfl
          | some cut => rfl

/-- Every order's iteration is one of these. -/
theorem redactArg_outcome (p : Enumeration tool) :
    ∃ entries s', redactArg (tool.enumerated p) s arg = some (entries, s') ∧ Outcome tool s arg entries s' := by
  rw [redactArg_enumerated]
  cases hb : beforeSearch tool s arg with
  | some done => exact ⟨_, _, rfl, .before hb⟩
  | none =>
    have hcuts := @attachedCut_enumerated _ arg p
    cases hcut : attachedCut arg (tool.enumerated p).parameters.entries with
    | some cut =>
      rw [hcut] at hcuts
      exact ⟨_, _, rfl, .cut hb hcuts⟩
    | none =>
      rw [hcut] at hcuts
      exact ⟨_, _, rfl, .whole hb hcuts⟩

/-- Every cut is made in some order. -/
theorem redactArg_made {c : Str × Bool} (hb : beforeSearch tool s arg = none) (hc : c ∈ cuts tool arg) :
    ∃ p : Enumeration tool, redactArg (tool.enumerated p) s arg = some ([c.1], { s with skipNext := c.2 }) := by
  obtain ⟨p, cut, hcut, rfl⟩ := exists_enumeration hc
  exact ⟨p, by rw [redactArg_enumerated, hb, hcut]⟩

theorem redactArg_length {tool : ToolPolicy} {entries : List Str} (h : redactArg tool s arg = some (entries, s')) :
    entries.length ≤ 1 := by
  obtain ⟨entries', t, h', hstep⟩ := @redactArg_step tool s arg
  cases h.symm.trans h'
  exact hstep.length_le

/-- Two orders do the same, or both cut the argument. -/
theorem Outcome.same_or_cut {entries entries' : List Str} {t t' : RedactState} (h : Outcome tool s arg entries t)
    (h' : Outcome tool s arg entries' t') : (entries = entries' ∧ t = t') ∨
      ∃ c ∈ cuts tool arg, ∃ c' ∈ cuts tool arg, entries = [c.1] ∧ entries' = [c'.1] := by
  cases h with
  | before hb =>
    cases h' with
    | before hb' =>
      cases hb.symm.trans hb'
      exact .inl ⟨rfl, rfl⟩
    | cut hb' | whole hb' => cases hb.symm.trans hb'
  | cut hb hc =>
    cases h' with
    | before hb' => cases hb.symm.trans hb'
    | cut _ hc' => exact .inr ⟨_, hc, _, hc', rfl, rfl⟩
    | whole _ hnil => simp [hnil] at hc
  | whole hb hnil =>
    cases h' with
    | before hb' => cases hb.symm.trans hb'
    | cut _ hc' => simp [hnil] at hc'
    | whole => exact .inl ⟨rfl, rfl⟩

/-! ## The record in an order -/

/-- What the loop adds to the record. -/
def recordFrom (tool : ToolPolicy) (p : Enumeration tool) (s : RedactState) (args : List Str) : List Str :=
  (redactLoop (tool.enumerated p) s args).getD []

theorem redactLoop_recordFrom (p : Enumeration tool) {args : List Str} :
    redactLoop (tool.enumerated p) s args = some (recordFrom tool p s args) := by
  obtain ⟨out, ho, -⟩ := @redactLoop_total (tool.enumerated p) args s
  rw [recordFrom, ho]
  rfl

theorem recordFrom_cons {rest entries : List Str} (h : redactArg (tool.enumerated p) s arg = some (entries, s')) :
    recordFrom tool p s (arg :: rest) = entries ++ recordFrom tool p s' rest := by
  have hloop := @redactLoop_recordFrom tool s p (arg :: rest)
  rw [redactLoop_cons h, redactLoop_recordFrom] at hloop
  exact (Option.some.inj hloop).symm

/-- From one state two records do not differ by an entry `[REDACTED]` more in front. -/
theorem recordFrom_ne_redacted_cons {args : List Str} {s : RedactState} :
    recordFrom tool p s args ≠ redactedEntry :: recordFrom tool p' s args := by
  induction args generalizing s with
  | nil => simp [recordFrom, redactLoop]
  | cons arg rest ih =>
    obtain ⟨entries, t, he, ho⟩ := @redactArg_outcome tool s arg p
    obtain ⟨entries', t', he', ho'⟩ := @redactArg_outcome tool s arg p'
    have hlen := redactArg_length he
    rw [recordFrom_cons he, recordFrom_cons he']
    obtain ⟨rfl, rfl⟩ | ⟨c, hc, c', -, rfl, rfl⟩ := ho.same_or_cut ho'
    · cases entries with
      | nil => exact ih
      | cons entry more =>
        have hmore : more = [] := by simpa using hlen
        subst hmore
        intro h
        obtain ⟨rfl, h⟩ := List.cons.inj h
        exact ih h
    · intro h
      exact cuts_ne_redacted hc (List.cons.inj h).1

/-! ## One record -/

/-- Whether the next argument is skipped: in no order, in every one, or in some. -/
inductive Skip where
  | never
  | always
  | sometimes

namespace Skip

def Allows : Skip → Bool → Prop
  | never, skipNext => skipNext = false
  | always, skipNext => skipNext = true
  | sometimes, _ => True

/-- After an argument that every order treats alike, from a state only some are in. -/
def after (skip : Skip) (skipNext : Bool) : Skip := if skipNext then skip else never

/-- After an argument with these cuts. -/
def ofCuts (cs : List (Str × Bool)) : Skip := if cs.all (·.2) then always else if cs.any (·.2) then sometimes else never

end Skip

/-- The order of the parameters does not show: wherever an argument may be cut,
its entry is the same; and an argument that is hidden in some orders is shown as
`[REDACTED]` in the others. -/
def OneRecord (tool : ToolPolicy) : Skip → Bool → List Str → Prop
  | _, _, [] => True
  | .always, afterDoubleDash, _ :: rest => OneRecord tool .never afterDoubleDash rest
  | .never, afterDoubleDash, arg :: rest =>
    let s : RedactState := { afterDoubleDash }
    match beforeSearch tool s arg with
    | some (_, s') => OneRecord tool .never s'.afterDoubleDash rest
    | none =>
      if cuts tool arg = [] then
        OneRecord tool (Skip.always.after (redactWhole tool s arg).2.skipNext) afterDoubleDash rest
      else (∀ c ∈ cuts tool arg, ∀ c' ∈ cuts tool arg, c.1 = c'.1) ∧
        OneRecord tool (.ofCuts (cuts tool arg)) afterDoubleDash rest
  | .sometimes, afterDoubleDash, arg :: rest =>
    let s : RedactState := { afterDoubleDash }
    match beforeSearch tool s arg with
    | some (entries, _) => entries = [redactedEntry] ∧ OneRecord tool .never afterDoubleDash rest
    | none => cuts tool arg = [] ∧ (redactWhole tool s arg).1 = [redactedEntry] ∧
        OneRecord tool (Skip.sometimes.after (redactWhole tool s arg).2.skipNext) afterDoubleDash rest

theorem beforeSearch_skipped (h : s.skipNext = true) :
    beforeSearch tool s arg = some ([redactedEntry], { s with skipNext := false }) := if_pos h

/-- Before the search an argument has one entry and no value is announced; one
that is looked at and shown as `[REDACTED]` leaves no trace. -/
theorem beforeSearch_some {entries : List Str} (h : beforeSearch tool s arg = some (entries, s')) :
    ∃ entry, entries = [entry] ∧ s'.skipNext = false ∧ (s.skipNext = false → entry = redactedEntry → s' = s) := by
  unfold beforeSearch at h
  split at h
  · next hskip =>
    cases h
    exact ⟨_, rfl, rfl, fun h => absurd (hskip.symm.trans h) (by decide)⟩
  · next hskip =>
    have hskip := Bool.eq_false_iff.mpr hskip
    split at h
    · next hdel =>
      cases h
      exact ⟨_, rfl, hskip, fun _ he => absurd (hdel.symm.trans he) (by decide)⟩
    · split at h
      · cases h
        exact ⟨_, rfl, hskip, fun _ _ => rfl⟩
      · obtain ⟨key, -, he⟩ := Option.map_eq_some_iff.mp h
        cases he
        exact ⟨_, rfl, hskip, fun _ _ => rfl⟩

theorem redactWhole_state : (redactWhole tool s arg).2.afterDoubleDash = s.afterDoubleDash ∧
    ((redactWhole tool s arg).1 = [] → (redactWhole tool s arg).2 = s) := by
  unfold redactWhole
  split
  · simp
  · split
    · split
      · split <;> simp
      · split <;> simp
    · split
      · split <;> simp
      · simp

theorem Skip.allows_after {skip : Skip} (h : skip ≠ .never) (b : Bool) : (skip.after b).Allows b := by
  cases skip <;> cases b <;> simp_all [Skip.after, Skip.Allows]

theorem Skip.allows_ofCuts {cs : List (Str × Bool)} {c : Str × Bool} (h : c ∈ cs) : (Skip.ofCuts cs).Allows c.2 := by
  unfold Skip.ofCuts
  split
  · next hall => exact List.all_eq_true.mp hall c h
  · split
    · trivial
    · next hany =>
      simp only [List.any_eq_true, not_exists, not_and, Bool.not_eq_true] at hany
      exact hany c h

theorem Skip.ofCuts_sometimes {cs : List (Str × Bool)} (h : Skip.ofCuts cs = .sometimes) :
    (∃ c ∈ cs, c.2 = true) ∧ ∃ c ∈ cs, c.2 = false := by
  unfold Skip.ofCuts at h
  split at h
  · cases h
  · next hall =>
    split at h
    · next hany => simp_all
    · cases h

theorem RedactState.eq_of {dd : Bool} (hd : s.afterDoubleDash = dd) (hs : s.skipNext = false) :
    s = { afterDoubleDash := dd } := by
  cases s
  subst hd hs
  rfl

theorem Outcome.eq_before {entries : List Str} {done : List Str × RedactState}
    (h : Outcome tool s arg entries s') (hb : beforeSearch tool s arg = some done) :
    entries = done.1 ∧ s' = done.2 := by
  cases h with
  | before h =>
    cases hb.symm.trans h
    exact ⟨rfl, rfl⟩
  | cut h | whole h => cases hb.symm.trans h

theorem Outcome.eq_whole {entries : List Str} (h : Outcome tool s arg entries s')
    (hb : beforeSearch tool s arg = none) (hnil : cuts tool arg = []) :
    entries = (redactWhole tool s arg).1 ∧ s' = (redactWhole tool s arg).2 := by
  cases h with
  | before h => cases hb.symm.trans h
  | cut _ hc => simp [hnil] at hc
  | whole => exact ⟨rfl, rfl⟩

theorem Outcome.mem_cuts {entries : List Str} (h : Outcome tool s arg entries s')
    (hb : beforeSearch tool s arg = none) (hne : cuts tool arg ≠ []) :
    ∃ c ∈ cuts tool arg, entries = [c.1] ∧ s' = { s with skipNext := c.2 } := by
  cases h with
  | before h => cases hb.symm.trans h
  | cut _ hc => exact ⟨_, hc, rfl, rfl⟩
  | whole _ hnil => exact absurd hnil hne

/-- **One argument of a command line with one record**: every order has the same
entry for it, and is then in a state the rest allows. -/
theorem OneRecord.step {skip : Skip} {dd : Bool} {rest : List Str} (h : OneRecord tool skip dd (arg :: rest)) :
    ∃ skip' dd' e, OneRecord tool skip' dd' rest ∧ ∀ s entries t, s.afterDoubleDash = dd → skip.Allows s.skipNext →
      Outcome tool s arg entries t → entries = e ∧ t.afterDoubleDash = dd' ∧ skip'.Allows t.skipNext := by
  cases skip with
  | always =>
    refine ⟨.never, dd, [redactedEntry], h, fun s entries t hd hs ho => ?_⟩
    obtain ⟨rfl, rfl⟩ := ho.eq_before (beforeSearch_skipped hs)
    exact ⟨rfl, hd, rfl⟩
  | never =>
    simp only [OneRecord] at h
    cases hb : beforeSearch tool { afterDoubleDash := dd } arg with
    | some done =>
      rw [hb] at h
      refine ⟨.never, _, done.1, h, fun s entries t hd hs ho => ?_⟩
      obtain rfl := RedactState.eq_of hd hs
      obtain ⟨rfl, rfl⟩ := ho.eq_before hb
      obtain ⟨-, -, hskip, -⟩ := beforeSearch_some hb
      exact ⟨rfl, rfl, hskip⟩
    | none =>
      rw [hb] at h
      dsimp only at h
      split at h
      · next hnil =>
        refine ⟨_, _, (redactWhole tool { afterDoubleDash := dd } arg).1, h, fun s entries t hd hs ho => ?_⟩
        obtain rfl := RedactState.eq_of hd hs
        obtain ⟨rfl, rfl⟩ := ho.eq_whole hb hnil
        exact ⟨rfl, redactWhole_state.1, Skip.allows_after (by simp) _⟩
      · next hne =>
        obtain ⟨c, hc⟩ := List.exists_mem_of_ne_nil _ hne
        refine ⟨_, _, [c.1], h.2, fun s entries t hd hs ho => ?_⟩
        obtain rfl := RedactState.eq_of hd hs
        obtain ⟨c', hc', rfl, rfl⟩ := ho.mem_cuts hb hne
        exact ⟨by rw [h.1 c hc c' hc'], rfl, Skip.allows_ofCuts hc'⟩
  | sometimes =>
    simp only [OneRecord] at h
    cases hb : beforeSearch tool { afterDoubleDash := dd } arg with
    | some done =>
      rw [hb] at h
      refine ⟨.never, dd, [redactedEntry], h.2, fun s entries t hd _ ho => ?_⟩
      cases hs : s.skipNext with
      | true =>
        obtain ⟨rfl, rfl⟩ := ho.eq_before (beforeSearch_skipped hs)
        exact ⟨rfl, hd, rfl⟩
      | false =>
        obtain rfl := RedactState.eq_of hd hs
        obtain ⟨rfl, rfl⟩ := ho.eq_before hb
        obtain ⟨entry, he, -, hsame⟩ := beforeSearch_some hb
        obtain rfl : entry = redactedEntry := by simpa [he] using h.1
        rw [hsame rfl rfl]
        exact ⟨h.1, rfl, rfl⟩
    | none =>
      rw [hb] at h
      obtain ⟨hnil, he, hrest⟩ := h
      refine ⟨_, _, [redactedEntry], hrest, fun s entries t hd _ ho => ?_⟩
      cases hs : s.skipNext with
      | true =>
        obtain ⟨rfl, rfl⟩ := ho.eq_before (beforeSearch_skipped hs)
        refine ⟨rfl, hd, ?_⟩
        unfold Skip.after
        split
        · trivial
        · rfl
      | false =>
        obtain rfl := RedactState.eq_of hd hs
        obtain ⟨rfl, rfl⟩ := ho.eq_whole hb hnil
        exact ⟨he, redactWhole_state.1, Skip.allows_after (by simp) _⟩

/-- Orders in states the rest allows add the same to the record. -/
theorem OneRecord.recordFrom_eq : ∀ {args : List Str} {skip : Skip} {dd : Bool} {s s' : RedactState},
    OneRecord tool skip dd args → s.afterDoubleDash = dd → skip.Allows s.skipNext → s'.afterDoubleDash = dd →
    skip.Allows s'.skipNext → recordFrom tool p s args = recordFrom tool p' s' args
  | [], _, _, _, _, _, _, _, _, _ => rfl
  | arg :: rest, skip, dd, s, s', h, hd, hs, hd', hs' => by
    obtain ⟨entries, t, he, ho⟩ := @redactArg_outcome tool s arg p
    obtain ⟨entries', t', he', ho'⟩ := @redactArg_outcome tool s' arg p'
    obtain ⟨skip', dd', e, hrest, hall⟩ := h.step
    obtain ⟨rfl, htd, hts⟩ := hall s entries t hd hs ho
    obtain ⟨rfl, htd', hts'⟩ := hall s' entries' t' hd' hs' ho'
    rw [recordFrom_cons he, recordFrom_cons he', hrest.recordFrom_eq htd hts htd' hts']

/-- The states the orders are in, among those that `skip` allows. -/
structure Realized (tool : ToolPolicy) (skip : Skip) (dd : Bool) (st : Enumeration tool → RedactState) : Prop where
  delimited : ∀ p, (st p).afterDoubleDash = dd
  allows : ∀ p, skip.Allows (st p).skipNext
  both : skip = .sometimes → (∃ p, (st p).skipNext = true) ∧ ∃ p, (st p).skipNext = false

theorem Realized.never {dd : Bool} {st : Enumeration tool → RedactState} (h : ∀ p, st p = { afterDoubleDash := dd }) :
    Realized tool .never dd st where
  delimited p := by rw [h p]
  allows p := by rw [h p]; rfl
  both := by simp

/-- **Orders with the same record** are those of a command line with one record. -/
theorem oneRecord_of : ∀ {args : List Str} {skip : Skip} {dd : Bool} {st : Enumeration tool → RedactState},
    Realized tool skip dd st → (∀ p p', recordFrom tool p (st p) args = recordFrom tool p' (st p') args) →
    OneRecord tool skip dd args
  | [], skip, _, _, _, _ => by cases skip <;> trivial
  | arg :: rest, skip, dd, st, hst, hsame => by
    have hiter := fun p => @redactArg_outcome tool (st p) arg p
    choose entries t he ho using hiter
    -- the entries of two orders, and what the rest adds
    have hcons : ∀ p p', entries p ++ recordFrom tool p (t p) rest = entries p' ++ recordFrom tool p' (t p') rest := by
      intro p p'
      rw [← recordFrom_cons (he p), ← recordFrom_cons (he p')]
      exact hsame p p'
    have hrest : (∀ p p', entries p = entries p') →
        ∀ p p', recordFrom tool p (t p) rest = recordFrom tool p' (t p') rest := by
      intro hall p p'
      have := hcons p p'
      rw [hall p p'] at this
      exact List.append_cancel_left this
    cases skip with
    | always =>
      have hbefore := fun p => (ho p).eq_before (beforeSearch_skipped (hst.allows p))
      have ht : ∀ p, t p = { afterDoubleDash := dd } := fun p =>
        (hbefore p).2.trans (RedactState.eq_of (hst.delimited p) rfl)
      show OneRecord tool .never dd rest
      exact oneRecord_of (.never ht) (hrest fun p p' => (hbefore p).1.trans (hbefore p').1.symm)
    | never =>
      have hs : ∀ p, st p = { afterDoubleDash := dd } := fun p => RedactState.eq_of (hst.delimited p) (hst.allows p)
      simp only [hs] at ho he
      simp only [OneRecord]
      cases hb : beforeSearch tool { afterDoubleDash := dd } arg with
      | some done =>
        obtain ⟨-, -, hskip, -⟩ := beforeSearch_some hb
        have hdone := fun p => (ho p).eq_before hb
        exact oneRecord_of (.never fun p => (hdone p).2.trans (RedactState.eq_of rfl hskip))
          (hrest fun p p' => (hdone p).1.trans (hdone p').1.symm)
      | none =>
        dsimp only
        split
        · next hnil =>
          have hwhole := fun p => (ho p).eq_whole hb hnil
          refine @oneRecord_of rest _ _ t ⟨fun p => ?_, fun p => ?_, fun h => ?_⟩
            (hrest fun p p' => (hwhole p).1.trans (hwhole p').1.symm)
          · rw [(hwhole p).2]
            exact redactWhole_state.1
          · rw [(hwhole p).2]
            exact Skip.allows_after (by simp) _
          · unfold Skip.after at h
            split at h <;> cases h
        · next hne =>
          have hcut := fun p => (ho p).mem_cuts hb hne
          have hall : ∀ p p', entries p = entries p' := by
            intro p p'
            obtain ⟨c, -, hp, -⟩ := hcut p
            obtain ⟨c', -, hp', -⟩ := hcut p'
            have := hcons p p'
            rw [hp, hp'] at this ⊢
            rw [(List.cons.inj this).1]
          have hmade : ∀ c ∈ cuts tool arg, ∃ p, entries p = [c.1] ∧ (t p).skipNext = c.2 := by
            intro c hc
            obtain ⟨p, hp⟩ := redactArg_made hb hc
            obtain ⟨hentries, ht⟩ := Prod.ext_iff.mp (Option.some.inj ((he p).symm.trans hp))
            exact ⟨p, hentries, congrArg (·.skipNext) ht⟩
          refine ⟨fun c hc c' hc' => ?_, @oneRecord_of rest _ _ t ⟨fun p => ?_, fun p => ?_, fun h => ?_⟩ (hrest hall)⟩
          · obtain ⟨p, hp, -⟩ := hmade c hc
            obtain ⟨p', hp', -⟩ := hmade c' hc'
            simpa [hp, hp'] using hall p p'
          · obtain ⟨c, -, -, ht⟩ := hcut p
            rw [ht]
          · obtain ⟨c, hc, -, ht⟩ := hcut p
            rw [ht]
            exact Skip.allows_ofCuts hc
          · obtain ⟨⟨c, hc, hskip⟩, c', hc', hskip'⟩ := Skip.ofCuts_sometimes h
            obtain ⟨p, -, hp⟩ := hmade c hc
            obtain ⟨p', -, hp'⟩ := hmade c' hc'
            exact ⟨⟨p, hp.trans hskip⟩, p', hp'.trans hskip'⟩
    | sometimes =>
      obtain ⟨⟨p₁, h₁⟩, p₂, h₂⟩ := hst.both rfl
      have hskipped : ∀ p, (st p).skipNext = true → entries p = [redactedEntry] ∧ t p = { afterDoubleDash := dd } := by
        intro p hp
        obtain ⟨hentries, ht⟩ := (ho p).eq_before (beforeSearch_skipped hp)
        exact ⟨hentries, ht.trans (RedactState.eq_of (hst.delimited p) rfl)⟩
      have hlooked : ∀ p, (st p).skipNext = false → Outcome tool { afterDoubleDash := dd } arg (entries p) (t p) :=
        fun p hp => RedactState.eq_of (hst.delimited p) hp ▸ ho p
      -- an order that looks at the argument shows it as one that hides it
      have hhead : ∀ entry, entries p₂ = [entry] → entry = redactedEntry := by
        intro entry he
        have := hcons p₂ p₁
        rw [he, (hskipped p₁ h₁).1] at this
        exact (List.cons.inj this).1
      simp only [OneRecord]
      cases hb : beforeSearch tool { afterDoubleDash := dd } arg with
      | some done =>
        obtain ⟨entry, hdone, -, hsame⟩ := beforeSearch_some hb
        have hentry := hhead entry (((hlooked p₂ h₂).eq_before hb).1.trans hdone)
        have hall : ∀ p, entries p = [redactedEntry] ∧ t p = { afterDoubleDash := dd } := by
          intro p
          cases hp : (st p).skipNext with
          | true => exact hskipped p hp
          | false =>
            obtain ⟨hentries, ht⟩ := (hlooked p hp).eq_before hb
            exact ⟨by rw [hentries, hdone, hentry], ht.trans (hsame rfl hentry)⟩
        exact ⟨by rw [hdone, hentry], oneRecord_of (.never fun p => (hall p).2)
          (hrest fun p p' => (hall p).1.trans (hall p').1.symm)⟩
      | none =>
        have hnil : cuts tool arg = [] := by
          by_contra hne
          obtain ⟨c, hc, he, -⟩ := (hlooked p₂ h₂).mem_cuts hb hne
          exact cuts_ne_redacted hc (hhead c.1 he)
        have hwhole := fun p hp => (hlooked p hp).eq_whole hb hnil
        have hentries : (redactWhole tool { afterDoubleDash := dd } arg).1 = [redactedEntry] := by
          have hlen := redactArg_length (he p₂)
          rw [← (hwhole p₂ h₂).1]
          match hentries : entries p₂, hlen with
          | [entry], _ => rw [hhead entry hentries]
          | [], _ =>
            -- an order that drops the argument falls one entry short for good
            have hstate := redactWhole_state.2 ((hwhole p₂ h₂).1.symm.trans hentries)
            have hshort := hcons p₂ p₁
            rw [hentries, (hskipped p₁ h₁).1, (hskipped p₁ h₁).2, (hwhole p₂ h₂).2, hstate] at hshort
            exact absurd hshort recordFrom_ne_redacted_cons
        have hall : ∀ p, entries p = [redactedEntry] := by
          intro p
          cases hp : (st p).skipNext with
          | true => exact (hskipped p hp).1
          | false => rw [(hwhole p hp).1, hentries]
        refine ⟨hnil, hentries, @oneRecord_of rest _ _ t ⟨fun p => ?_, fun p => ?_, fun h => ?_⟩
          (hrest fun p p' => (hall p).trans (hall p').symm)⟩
        · cases hp : (st p).skipNext with
          | true => rw [(hskipped p hp).2]
          | false =>
            rw [(hwhole p hp).2]
            exact redactWhole_state.1
        · cases hp : (st p).skipNext with
          | true =>
            rw [(hskipped p hp).2]
            unfold Skip.after
            split
            · trivial
            · rfl
          | false =>
            rw [(hwhole p hp).2]
            exact Skip.allows_after (by simp) _
        · refine ⟨⟨p₂, ?_⟩, p₁, by rw [(hskipped p₁ h₁).2]⟩
          rw [(hwhole p₂ h₂).2]
          unfold Skip.after at h
          split at h
          · next hskip => exact hskip
          · cases h

/-- The loop's record is the same in all orders exactly when the order of the
parameters does not show. -/
theorem redactLoop_order_iff {args : List Str} :
    (∀ p p' : Enumeration tool, redactLoop (tool.enumerated p) {} args = redactLoop (tool.enumerated p') {} args) ↔
      OneRecord tool .never false args := by
  constructor
  · intro h
    refine @oneRecord_of tool args _ _ (fun _ => {}) (.never fun _ => rfl) fun p p' => ?_
    rw [recordFrom, recordFrom, h p p']
  · intro h p p'
    rw [redactLoop_recordFrom, redactLoop_recordFrom,
      @OneRecord.recordFrom_eq tool p p' args .never false {} {} h rfl rfl rfl rfl]

/-- **What the log shows of a command line does not depend on the order of the
tool's parameters** exactly when the command line has one record. -/
theorem redactArgs_order_iff {toolName : Str} {args : List Str} :
    (∀ (policy policy' : SecureSudoersPolicy) (p p' : Enumeration tool),
      policy.tools.get toolName = some (tool.enumerated p) → policy'.tools.get toolName = some (tool.enumerated p') →
      redactArgs args policy toolName = redactArgs args policy' toolName) ↔ OneRecord tool .never false args := by
  rw [← redactLoop_order_iff]
  constructor
  · intro h p p'
    have hget : ∀ t : ToolPolicy, (HashMap.single toolName t).get toolName = some t := fun t =>
      HashMap.get_of_mem List.mem_cons_self
    have hsame := h { globalSettings := {}, tools := .single toolName (tool.enumerated p) }
      { globalSettings := {}, tools := .single toolName (tool.enumerated p') } p p' (hget _) (hget _)
    rw [redactArgs, redactArgs, hget, hget] at hsame
    exact hsame
  · intro h policy policy' p p' hp hp'
    simp only [redactArgs, hp, hp', h p p']

/-! ## Two flags in one argument -/

def secretConfig : ParameterConfig := { paramType := .string, sensitive := true }

/-- A tool with the sensitive strings `-p` and `-s`. -/
def twoSecretsTool : ToolPolicy where
  realBinary := "/usr/bin/db"
  parameters := { entries := [("-p", secretConfig), ("-s", secretConfig)], nodup := by decide }

/-- Its parameters the other way round. -/
def twoSecretsSwapped : Enumeration twoSecretsTool :=
  ⟨{ entries := [("-s", secretConfig), ("-p", secretConfig)], nodup := by decide }, List.Perm.swap _ _ _⟩

/-- `-sp` is shown whole when `-p` comes first, and cut after its first letter when `-s` does. -/
theorem redactArgs_order_matters :
    ¬∀ (tool : ToolPolicy) (toolName : Str) (args : List Str) (policy policy' : SecureSudoersPolicy)
      (p p' : Enumeration tool), policy.tools.get toolName = some (tool.enumerated p) →
      policy'.tools.get toolName = some (tool.enumerated p') →
      redactArgs args policy toolName = redactArgs args policy' toolName := by
  intro h
  have hsame := h twoSecretsTool "db" ["-sp"] { globalSettings := {}, tools := .single "db" twoSecretsTool }
    { globalSettings := {}, tools := .single "db" (twoSecretsTool.enumerated twoSecretsSwapped) }
    ⟨twoSecretsTool.parameters, .refl _⟩ twoSecretsSwapped rfl rfl
  exact absurd (congrArg (·.map (·.map List.length)) hsame) (by decide)

end SecureSudoers
