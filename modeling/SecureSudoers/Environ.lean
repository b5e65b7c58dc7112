/-
The environment of the delegated program (`build_scrubbed_env`, and `envp` in
`execute_securely`).

The block that the wrapper has is taken apart into names and values, filtered,
and put together again. `scrubbed_block` says what the program finds: of the
entries of the block those with a name of the whitelist, octet for octet and in
their order, so that each variable is what it was or is not there.
-/
import SecureSudoers.Pem
import SecureSudoers.Startup

namespace SecureSudoers

variable {D : Type}

def equalsSign : UInt8 := 61

/-- An entry as `std::env::vars_os` splits it: at the first equals sign, not
counting its first octet. One without is skipped. -/
def splitEntry : Bytes → Option (Bytes × Bytes)
  | [] => none
  | first :: rest =>
    match rest.dropWhile (· ≠ equalsSign) with
    | [] => none
    | _ :: value => some (first :: rest.takeWhile (· ≠ equalsSign), value)

/-- `std::env::vars_os`, from the environment block. -/
def varsOs (block : List Bytes) : List (Bytes × Bytes) := block.filterMap splitEntry

/-- The environment of a process that has this block. -/
def Startup.ofBlock (cmd : ValidatedCommand D) (block : List Bytes) : Startup D := ⟨cmd, varsOs block⟩

/-- `getenv`, in the delegated program. -/
def getenv (name : Bytes) : List Bytes → Option Bytes
  | [] => none
  | entry :: block => if name ++ [equalsSign] <+: entry then some (entry.drop (name.length + 1)) else getenv name block

/-- The entry's name is one of the whitelist. -/
def Listed (whitelist : List Str) (entry : Bytes) : Prop :=
  ∃ name ∈ whitelist, (splitEntry entry).map Prod.fst = some (Utf8.encode name)

instance {whitelist : List Str} {entry : Bytes} : Decidable (Listed whitelist entry) := by
  unfold Listed
  infer_instance

theorem splitEntry_some {entry name value : Bytes} (h : splitEntry entry = some (name, value)) :
    entry = name ++ equalsSign :: value := by
  cases entry with
  | nil => cases h
  | cons first rest =>
    by_cases hmem : equalsSign ∈ rest
    · obtain ⟨front, back, rfl, hfront⟩ := List.eq_append_cons_of_mem hmem
      rw [splitEntry, (takeWhile_dropWhile_ne hfront).1, (takeWhile_dropWhile_ne hfront).2] at h
      cases h
      rfl
    · rw [splitEntry, (takeWhile_dropWhile_none hmem).2] at h
      cases h

/-- An entry is split behind a name that `getenv` can be asked for. -/
theorem splitEntry_name {name value : Bytes} (hne : name ≠ []) (hname : equalsSign ∉ name) :
    splitEntry (name ++ equalsSign :: value) = some (name, value) := by
  cases name with
  | nil => exact absurd rfl hne
  | cons first name =>
    have hname : equalsSign ∉ name := fun h => hname (List.mem_cons_of_mem _ h)
    rw [List.cons_append, splitEntry, (takeWhile_dropWhile_ne hname).1, (takeWhile_dropWhile_ne hname).2]

/-! ## The block that is passed on -/

theorem varsOs_cons {entry : Bytes} {block : List Bytes} : varsOs (entry :: block) =
    match splitEntry entry with
    | some var => var :: varsOs block
    | none => varsOs block := by
  rw [varsOs, List.filterMap_cons]
  cases splitEntry entry <;> rfl

/-- The variables are read unless one of them is no text. -/
theorem envVars_none {vars : List (Bytes × Bytes)} :
    envVars vars = none ↔ ∃ var ∈ vars, Utf8.decode? var.1 = none ∨ Utf8.decode? var.2 = none := by
  induction vars with
  | nil => simp [envVars]
  | cons var vars ih =>
    obtain ⟨name, value⟩ := var
    rw [List.exists_mem_cons_iff, ← ih, envVars]
    cases Utf8.decode? name <;> cases Utf8.decode? value <;> cases envVars vars <;> simp

/-- What is passed on is the block, without the entries that are not listed. -/
theorem scrubbed_entries {whitelist : List Str} : ∀ {block : List Bytes} {vars : List (Str × Str)},
    envVars (varsOs block) = some vars →
      (vars.filter fun var => var.1 ∈ whitelist).map (fun var => Utf8.encode (var.1 ++ '=' :: var.2)) =
        block.filter (Listed whitelist)
  | [], vars, h => by
    cases h
    rfl
  | entry :: block, vars, h => by
    rw [varsOs_cons] at h
    cases hsplit : splitEntry entry with
    | none =>
      simp only [hsplit] at h
      have hnot : ¬Listed whitelist entry := by simp [Listed, hsplit]
      rw [List.filter_cons_of_neg (by simpa using hnot)]
      exact scrubbed_entries h
    | some var =>
      obtain ⟨name, value⟩ := var
      simp only [hsplit, envVars, bind, Option.bind_eq_some_iff] at h
      obtain ⟨name, hname, value, hvalue, more, hmore, hvars⟩ := h
      cases hvars
      rw [Utf8.decode?_eq_some] at hname hvalue
      subst hname hvalue
      have hentry : entry = Utf8.encode (name ++ '=' :: value) := by
        rw [splitEntry_some hsplit, Utf8.encode_append]
        rfl
      have hlisted : Listed whitelist entry ↔ name ∈ whitelist := by simp [Listed, hsplit]
      rw [List.filter_cons, List.filter_cons, ← scrubbed_entries hmore]
      by_cases hmem : name ∈ whitelist
      · rw [if_pos (by simpa using hmem), if_pos (by simpa using hlisted.mpr hmem), List.map_cons, hentry]
      · rw [if_neg (by simpa using hmem), if_neg (by simpa [hlisted] using hmem)]

/-- A variable is found as it was, if it is listed. -/
theorem getenv_filter {whitelist : List Str} {name : Bytes} (hne : name ≠ []) (hname : equalsSign ∉ name) :
    ∀ {block : List Bytes}, getenv name (block.filter (Listed whitelist)) =
      if ∃ v ∈ whitelist, Utf8.encode v = name then getenv name block else none
  | [] => by simp [getenv]
  | entry :: block => by
    have ih := @getenv_filter whitelist name hne hname block
    by_cases hfound : name ++ [equalsSign] <+: entry
    · obtain ⟨value, rfl⟩ := hfound
      have hsplit := @splitEntry_name name value hne hname
      rw [List.append_cons] at hsplit
      have hlisted : Listed whitelist (name ++ [equalsSign] ++ value) ↔ ∃ v ∈ whitelist, Utf8.encode v = name := by
        rw [Listed, hsplit]
        simp [eq_comm]
      by_cases hmem : ∃ v ∈ whitelist, Utf8.encode v = name
      · rw [List.filter_cons_of_pos (by simpa using hlisted.mpr hmem), getenv, getenv, if_pos hmem]
        simp
      · rw [List.filter_cons_of_neg (by simpa using mt hlisted.mp hmem), ih, if_neg hmem, if_neg hmem]
    · have hskip : getenv name (entry :: block) = getenv name block := if_neg hfound
      rw [hskip, List.filter_cons]
      split
      · rw [getenv, if_neg hfound, ih]
      · exact ih

/-- **What the delegated program finds in its environment.** The wrapper panics
on a variable that is no text. Otherwise the program has, in their order and
octet for octet, the entries with a name of the whitelist: each variable that is
listed is what it was, and no other is there. What the program is given are C
strings, as the block is, so that this step does not fail. -/
theorem scrubbed_block {cmd : ValidatedCommand D} {block : List Bytes} (hblock : ∀ entry ∈ block, 0 ∉ entry) :
    ((Startup.ofBlock cmd block).scrubbedEnv = none ↔ ∃ entry ∈ block, ∃ name value,
      splitEntry entry = some (name, value) ∧ (Utf8.decode? name = none ∨ Utf8.decode? value = none)) ∧
    ((Startup.ofBlock cmd block).scrubbedEnv ≠ none →
      (Startup.ofBlock cmd block).envp.map Utf8.encode = block.filter (Listed cmd.envWhitelist) ∧
      (Startup.ofBlock cmd block).can .envp .failed = false ∧
      ∀ name, name ≠ [] → equalsSign ∉ name → getenv name ((Startup.ofBlock cmd block).envp.map Utf8.encode) =
        if ∃ v ∈ cmd.envWhitelist, Utf8.encode v = name then getenv name block else none) := by
  constructor
  · rw [Startup.scrubbedEnv, buildScrubbedEnv, Option.map_eq_none_iff, envVars_none]
    simp only [Startup.ofBlock, varsOs, List.mem_filterMap, Prod.exists]
    constructor
    · intro h
      obtain ⟨name, value, ⟨entry, hmem, hsplit⟩, hnone⟩ := h
      exact ⟨entry, hmem, name, value, hsplit, hnone⟩
    · intro h
      obtain ⟨entry, hmem, name, value, hsplit, hnone⟩ := h
      exact ⟨name, value, ⟨entry, hmem, hsplit⟩, hnone⟩
  · intro hsome
    cases hvars : envVars (varsOs block) with
    | none => simp [Startup.scrubbedEnv, buildScrubbedEnv, Startup.ofBlock, hvars] at hsome
    | some vars =>
      have henvp : (Startup.ofBlock cmd block).envp =
          (vars.filter fun var => var.1 ∈ cmd.envWhitelist).map fun var => var.1 ++ '=' :: var.2 := by
        rw [Startup.envp, Startup.scrubbedEnv, buildScrubbedEnv, Startup.ofBlock, hvars]
        rfl
      have hentries : (Startup.ofBlock cmd block).envp.map Utf8.encode = block.filter (Listed cmd.envWhitelist) := by
        rw [henvp, List.map_map]
        exact scrubbed_entries hvars
      refine ⟨hentries, ?_, ?_⟩
      · have hall : (Startup.ofBlock cmd block).envp.all isCString = true := by
          refine List.all_eq_true.mpr fun var hvar => decide_eq_true fun hnul => ?_
          have hmem : Utf8.encode var ∈ block.filter (Listed cmd.envWhitelist) :=
            hentries ▸ List.mem_map_of_mem hvar
          exact hblock _ (List.mem_of_mem_filter hmem) ((Utf8.mem_encode_ascii (by decide)).mpr hnul)
        simp [Startup.can, hall]
      · intro name hne hname
        rw [hentries, getenv_filter hne hname]

/-- A command with the default whitelist. -/
def langCommand : ValidatedCommand Nat where
  binary := ⟨"/usr/bin/apt", 0⟩
  args := []
  isolation := {}
  envWhitelist := defaultCommonEnvWhitelist

def langBlock : List Bytes := ["LD_PRELOAD=/tmp/x.so", "LANG=C", "LANG=de_DE", "=junk", "junk"].map Utf8.encode

theorem scrubbed_block_lang :
    (Startup.ofBlock langCommand langBlock).envp.map Utf8.encode = ["LANG=C", "LANG=de_DE"].map Utf8.encode ∧
      getenv (Utf8.encode "LD_PRELOAD") ((Startup.ofBlock langCommand langBlock).envp.map Utf8.encode) = none := by
  have hblock : ∀ entry ∈ langBlock, 0 ∉ entry := by decide +kernel
  obtain ⟨henvp, -, hgetenv⟩ := (@scrubbed_block _ langCommand _ hblock).2 (by decide +kernel)
  refine ⟨henvp.trans (by decide +kernel), (hgetenv _ (by decide +kernel) (by decide +kernel)).trans ?_⟩
  rw [if_neg (by decide +kernel)]

end SecureSudoers
