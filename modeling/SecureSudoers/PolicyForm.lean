/-
What `SecureSudoersPolicy::validate` accepts (`models.rs`, `POLICY.md`), and
what it makes of it: `validate_ok` says both at once. A policy that is accepted
becomes `policy.canonical`: every pattern compiled, and every listed path that
exists written as the path of what it leads to.
-/
import SecureSudoers.CheckPath
import SecureSudoers.PolicyValidation

namespace SecureSudoers

variable {D : Type} {fs : FileSystem D} {regexNew : Str → Option Regex}

/-! ## The documented form -/

/-- The text a listed path is replaced by: one that leads nowhere stays. -/
def canonicalText (fs : FileSystem D) (path : Str) : Str :=
  match fs.realpath path with
  | .ok p => p
  | .error _ => path

/-- An absolute path that canonicalizes or is not found. -/
structure EntryOk (fs : FileSystem D) (path : Str) : Prop where
  absolute : Path.isAbsolute path = true
  found : (∃ p, fs.realpath path = .ok p) ∨ fs.realpath path = .error .ENOENT

namespace ParameterConfig

/-- The entries that are paths: those of a `Path`-typed config. -/
def listed (config : ParameterConfig) : List Str :=
  if config.paramType = .path then config.allowed.getD [] ++ config.disallowed.getD [] else []

/-- The config after validation. -/
def canonical (fs : FileSystem D) (regexNew : Str → Option Regex) (config : ParameterConfig) : ParameterConfig :=
  let replace entries := if config.paramType = .path then entries.map (canonicalText fs) else entries
  { config with
    compiledRegex := config.regex.bind regexNew
    allowed := config.allowed.map replace
    disallowed := config.disallowed.map replace }

end ParameterConfig

structure ConfigOk (fs : FileSystem D) (regexNew : Str → Option Regex) (config : ParameterConfig) : Prop where
  regex : ∀ pattern ∈ config.regex, (regexNew pattern).isSome = true
  entries : ∀ entry ∈ config.listed, EntryOk fs entry

structure ToolOk (fs : FileSystem D) (regexNew : Str → Option Regex) (name : Str) (tool : ToolPolicy) : Prop where
  name_valid : isValidToolName name = true
  binary_absolute : Path.isAbsolute tool.realBinary = true
  parameters : ∀ entry ∈ tool.parameters.entries, ConfigOk fs regexNew entry.2
  positional : ∀ config ∈ tool.positional, ConfigOk fs regexNew config

/-- The rules of `POLICY.md` for everything but the version. -/
structure PolicyOk (fs : FileSystem D) (regexNew : Str → Option Regex) (policy : SecureSudoersPolicy) : Prop where
  safeArgRegex : (regexNew policy.globalSettings.safeArgRegex).isSome = true
  blocked : ∀ path ∈ policy.globalSettings.blockedPaths, EntryOk fs path
  tools : ∀ entry ∈ policy.tools.entries, ToolOk fs regexNew entry.1 entry.2

/-- The documented form of a policy. -/
structure WellFormed (fs : FileSystem D) (regexNew : Str → Option Regex) (policy : SecureSudoersPolicy) : Prop
    extends PolicyOk fs regexNew policy where
  version : policy.version = "1.0"

/-- The same keys, with other values. -/
def HashMap.mapValues {V : Type} (f : V → V) (m : HashMap V) : HashMap V where
  entries := m.entries.map fun entry => (entry.1, f entry.2)
  nodup := by
    rw [List.map_map]
    exact m.nodup

/-- The tool after validation. -/
def ToolPolicy.canonical (fs : FileSystem D) (regexNew : Str → Option Regex) (tool : ToolPolicy) : ToolPolicy :=
  { tool with
    parameters := tool.parameters.mapValues (ParameterConfig.canonical fs regexNew)
    positional := tool.positional.map (ParameterConfig.canonical fs regexNew) }

/-- The policy after validation. -/
def SecureSudoersPolicy.canonical (fs : FileSystem D) (regexNew : Str → Option Regex) (policy : SecureSudoersPolicy) :
    SecureSudoersPolicy :=
  { policy with
    globalSettings :=
      { policy.globalSettings with blockedPaths := policy.globalSettings.blockedPaths.map (canonicalText fs) }
    tools := policy.tools.mapValues (ToolPolicy.canonical fs regexNew) }

/-! ## What validation does -/

theorem canonicalized_ok {path context q : Str} : canonicalized fs path context = .ok q ↔
    ((∃ p, fs.realpath path = .ok p) ∨ fs.realpath path = .error .ENOENT) ∧ q = canonicalText fs path := by
  unfold canonicalized canonicalText
  cases h : fs.realpath path with
  | ok p => simp [eq_comm]
  | error e => cases e <;> simp [eq_comm]

/-- One path of a list, whatever the errors say: it is absolute and found, and the rest follows. -/
theorem canonicalized_cons_ok {path context : Str} {e : Error} {tail : Except Error (List Str)} {paths out : List Str}
    (htail : ∀ rest, tail = .ok rest ↔ (∀ entry ∈ paths, EntryOk fs entry) ∧ rest = paths.map (canonicalText fs)) :
    (if !Path.isAbsolute path then .error e
      else do
        let p ← canonicalized fs path context
        let rest ← tail
        .ok (p :: rest)) = .ok out ↔
      (∀ entry ∈ path :: paths, EntryOk fs entry) ∧ out = (path :: paths).map (canonicalText fs) := by
  by_cases habs : Path.isAbsolute path = true
  · simp only [habs, Bool.not_true, Bool.false_eq_true, ite_false, bind_ok, canonicalized_ok, htail,
      List.forall_mem_cons, List.map_cons, Except.ok.injEq]
    constructor
    · rintro ⟨_, ⟨hfound, rfl⟩, _, ⟨hrest, rfl⟩, rfl⟩
      exact ⟨⟨⟨habs, hfound⟩, hrest⟩, rfl⟩
    · rintro ⟨⟨hentry, hrest⟩, rfl⟩
      exact ⟨_, ⟨hentry.found, rfl⟩, _, ⟨hrest, rfl⟩, rfl⟩
  · simp only [habs, Bool.not_false, ite_true, reduceCtorEq, false_iff, List.forall_mem_cons]
    exact fun h => habs h.1.1.absolute

theorem canonicalizePathListEntries_ok {listName toolName configLabel : Str} : ∀ {entries out : List Str},
    canonicalizePathListEntries fs listName toolName configLabel entries = .ok out ↔
      (∀ entry ∈ entries, EntryOk fs entry) ∧ out = entries.map (canonicalText fs)
  | [], out => by simp [canonicalizePathListEntries, eq_comm]
  | entry :: rest, out => by
    unfold canonicalizePathListEntries
    exact canonicalized_cons_ok fun _ => canonicalizePathListEntries_ok

theorem canonicalizeBlockedPaths_ok : ∀ {paths out : List Str}, canonicalizeBlockedPaths fs paths = .ok out ↔
      (∀ path ∈ paths, EntryOk fs path) ∧ out = paths.map (canonicalText fs)
  | [], out => by simp [canonicalizeBlockedPaths, eq_comm]
  | path :: rest, out => by
    unfold canonicalizeBlockedPaths
    exact canonicalized_cons_ok fun _ => canonicalizeBlockedPaths_ok

theorem canonicalizeList_ok {listName toolName configLabel : Str} {list out : Option (List Str)} :
    canonicalizeList fs listName toolName configLabel list = .ok out ↔
      (∀ entry ∈ list.getD [], EntryOk fs entry) ∧ out = list.map (List.map (canonicalText fs)) := by
  cases list with
  | none => simp [canonicalizeList, eq_comm]
  | some entries =>
    simp only [canonicalizeList, map_ok, canonicalizePathListEntries_ok, Option.getD_some, Option.map_some]
    constructor
    · rintro ⟨_, ⟨hentries, rfl⟩, rfl⟩
      exact ⟨hentries, rfl⟩
    · rintro ⟨hentries, rfl⟩
      exact ⟨_, ⟨hentries, rfl⟩, rfl⟩

theorem compileParameterRegex_ok {toolName configLabel : Str} {config out : ParameterConfig} :
    compileParameterRegex regexNew config toolName configLabel = .ok out ↔
      (∀ pattern ∈ config.regex, (regexNew pattern).isSome = true) ∧
        out = { config with compiledRegex := config.regex.bind regexNew } := by
  unfold compileParameterRegex
  cases hregex : config.regex with
  | none => exact ⟨fun h => ⟨by simp, (Except.ok.inj h).symm⟩, fun h => by rw [h.2]; rfl⟩
  | some pattern =>
    dsimp only
    cases hc : regexNew pattern with
    | none => simp [hc]
    | some re =>
      simp only [Option.bind_some, hc]
      exact ⟨fun h => ⟨by simp [hc], (Except.ok.inj h).symm⟩, fun h => by rw [h.2]⟩

theorem validateConfig_ok {toolName configLabel : Str} {config out : ParameterConfig} :
    validateConfig fs regexNew toolName configLabel config = .ok out ↔
      ConfigOk fs regexNew config ∧ out = config.canonical fs regexNew := by
  simp only [validateConfig, bind_ok, compileParameterRegex_ok]
  by_cases hpath : config.paramType = .path
  · have hlisted : config.listed = config.allowed.getD [] ++ config.disallowed.getD [] := if_pos hpath
    constructor
    · rintro ⟨_, ⟨hregex, rfl⟩, h⟩
      simp only [canonicalizePathListConfigEntries, hpath, ne_eq, not_true_eq_false, ite_false, bind_ok,
        canonicalizeList_ok, Except.ok.injEq] at h
      obtain ⟨_, ⟨hallowed, rfl⟩, _, ⟨hdisallowed, rfl⟩, rfl⟩ := h
      refine ⟨⟨hregex, ?_⟩, by simp [ParameterConfig.canonical, hpath]⟩
      rw [hlisted, List.forall_mem_append]
      exact ⟨hallowed, hdisallowed⟩
    · rintro ⟨⟨hregex, hentries⟩, rfl⟩
      rw [hlisted, List.forall_mem_append] at hentries
      refine ⟨_, ⟨hregex, rfl⟩, ?_⟩
      simp only [canonicalizePathListConfigEntries, hpath, ne_eq, not_true_eq_false, ite_false, bind_ok,
        canonicalizeList_ok, Except.ok.injEq]
      exact ⟨_, ⟨hentries.1, rfl⟩, _, ⟨hentries.2, rfl⟩, by simp [ParameterConfig.canonical, hpath]⟩
  · have hlisted : config.listed = [] := if_neg hpath
    have hcanon : config.canonical fs regexNew = { config with compiledRegex := config.regex.bind regexNew } := by
      simp [ParameterConfig.canonical, hpath]
    rw [hcanon]
    constructor
    · rintro ⟨_, ⟨hregex, rfl⟩, h⟩
      refine ⟨⟨hregex, by simp [hlisted]⟩, ?_⟩
      simpa [canonicalizePathListConfigEntries, hpath, eq_comm] using h
    · rintro ⟨⟨hregex, -⟩, rfl⟩
      exact ⟨_, ⟨hregex, rfl⟩, by simp [canonicalizePathListConfigEntries, hpath]⟩

/-- A loop whose step accepts some values and then replaces them. -/
theorem traverseEntries_ok {V : Type} {f : Str → V → Except Error V} {accepts : Str → V → Prop} {g : V → V}
    (hf : ∀ k v v', f k v = .ok v' ↔ accepts k v ∧ v' = g v) : ∀ {es es' : List (Str × V)},
    traverseEntries f es = .ok es' ↔
      (∀ entry ∈ es, accepts entry.1 entry.2) ∧ es' = es.map fun entry => (entry.1, g entry.2)
  | [], es' => by simp [traverseEntries, eq_comm]
  | (k, v) :: rest, es' => by
    have ih : ∀ {es' : List (Str × V)}, traverseEntries f rest = .ok es' ↔
        (∀ entry ∈ rest, accepts entry.1 entry.2) ∧ es' = rest.map fun entry => (entry.1, g entry.2) :=
      traverseEntries_ok hf
    simp only [traverseEntries, bind_ok, hf, ih, List.forall_mem_cons, List.map_cons, Except.ok.injEq]
    constructor
    · rintro ⟨_, ⟨hv, rfl⟩, _, ⟨hrest, rfl⟩, rfl⟩
      exact ⟨⟨hv, hrest⟩, rfl⟩
    · rintro ⟨⟨hv, hrest⟩, rfl⟩
      exact ⟨_, ⟨hv, rfl⟩, _, ⟨hrest, rfl⟩, rfl⟩

theorem traverse_ok {V : Type} {f : Str → V → Except Error V} {accepts : Str → V → Prop} {g : V → V}
    (hf : ∀ k v v', f k v = .ok v' ↔ accepts k v ∧ v' = g v) {m m' : HashMap V} :
    m.traverse f = .ok m' ↔ (∀ entry ∈ m.entries, accepts entry.1 entry.2) ∧ m' = m.mapValues g := by
  have hentries := @traverseEntries_ok V f accepts g hf m.entries
  unfold HashMap.traverse
  split
  · next e he =>
    refine ⟨fun h => (by cases h), fun ⟨hall, _⟩ => ?_⟩
    rw [hentries.mpr ⟨hall, rfl⟩] at he
    cases he
  · next es he =>
    obtain ⟨hall, hes⟩ := hentries.mp he
    constructor
    · intro h
      cases h
      exact ⟨hall, by subst hes; rfl⟩
    · rintro ⟨-, rfl⟩
      subst hes
      rfl

theorem validateTool_ok {name : Str} {tool out : ToolPolicy} :
    validateTool fs regexNew name tool = .ok out ↔ ToolOk fs regexNew name tool ∧ out = tool.canonical fs regexNew := by
  have hparameters : ∀ m', (tool.parameters.traverse fun flag config =>
      validateConfig fs regexNew name ("parameter '" ++ flag ++ "'") config) = .ok m' ↔
      (∀ entry ∈ tool.parameters.entries, ConfigOk fs regexNew entry.2) ∧
        m' = tool.parameters.mapValues (ParameterConfig.canonical fs regexNew) := fun m' =>
    @traverse_ok _ _ (fun _ config => ConfigOk fs regexNew config) _ (fun _ _ _ => validateConfig_ok) _ m'
  unfold validateTool
  by_cases hname : isValidToolName name = true
  · by_cases hbinary : Path.isAbsolute tool.realBinary = true
    · simp only [hname, hbinary, Bool.not_true, Bool.false_eq_true, ite_false, bind_ok, hparameters]
      cases hpos : tool.positional with
      | none =>
        simp only [bind_ok, Except.ok.injEq, exists_eq_left']
        constructor
        · rintro ⟨_, ⟨hp, rfl⟩, rfl⟩
          exact ⟨⟨hname, hbinary, hp, by simp [hpos]⟩, by simp only [ToolPolicy.canonical, hpos, Option.map_none]⟩
        · rintro ⟨h, rfl⟩
          exact ⟨_, ⟨h.parameters, rfl⟩, by simp only [ToolPolicy.canonical, hpos, Option.map_none]⟩
      | some config =>
        simp only [bind_ok, map_ok, validateConfig_ok, Except.ok.injEq]
        constructor
        · rintro ⟨_, ⟨hp, rfl⟩, _, ⟨_, ⟨hc, rfl⟩, rfl⟩, rfl⟩
          exact ⟨⟨hname, hbinary, hp, by simpa [hpos] using hc⟩,
            by simp only [ToolPolicy.canonical, hpos, Option.map_some]⟩
        · rintro ⟨h, rfl⟩
          exact ⟨_, ⟨h.parameters, rfl⟩, _, ⟨_, ⟨h.positional config hpos, rfl⟩, rfl⟩,
            by simp only [ToolPolicy.canonical, hpos, Option.map_some]⟩
    · simp only [hname, hbinary, Bool.not_true, Bool.not_false, Bool.false_eq_true, ite_false, ite_true, reduceCtorEq,
        false_iff]
      exact fun h => hbinary h.1.binary_absolute
  · simp only [hname, Bool.not_false, ite_true, reduceCtorEq, false_iff]
    exact fun h => hname h.1.name_valid

/-- **A policy is accepted exactly when it keeps the documented rules but for
the version's**, and then becomes its canonical form. -/
theorem validate_ok {policy policy' : SecureSudoersPolicy} :
    policy.validate fs regexNew = .ok policy' ↔
      PolicyOk fs regexNew policy ∧ policy' = policy.canonical fs regexNew := by
  unfold SecureSudoersPolicy.validate
  cases hsafe : regexNew policy.globalSettings.safeArgRegex with
  | none =>
    simp only [Option.isNone_none, ite_true, reduceCtorEq, false_iff]
    intro h
    simpa [hsafe] using h.1.safeArgRegex
  | some re =>
    have htools := fun m' => @traverse_ok ToolPolicy (validateTool fs regexNew) (ToolOk fs regexNew)
      (ToolPolicy.canonical fs regexNew) (fun _ _ _ => validateTool_ok) policy.tools m'
    simp only [Option.isNone_some, Bool.false_eq_true, ite_false, bind_ok, canonicalizeBlockedPaths_ok, htools,
      Except.ok.injEq]
    constructor
    · rintro ⟨_, ⟨hblocked, rfl⟩, _, ⟨ht, rfl⟩, rfl⟩
      exact ⟨⟨by rw [hsafe]; rfl, hblocked, ht⟩, rfl⟩
    · rintro ⟨h, rfl⟩
      exact ⟨_, ⟨h.blocked, rfl⟩, _, ⟨h.tools, rfl⟩, rfl⟩

/-! ## The path of an object leads to it -/

/-- What `canonicalize` resolves a path to. -/
def LeadsTo (fs : FileSystem D) (path : Str) (d : D) : Prop :=
  '\x00' ∉ path ∧ fs.canonicalEntry (Utf8.encode path) = .ok d

theorem realpath_ok {path p : Str} : fs.realpath path = .ok p ↔ ∃ d, LeadsTo fs path d ∧ fs.canonicalPath d = p := by
  unfold FileSystem.realpath LeadsTo
  by_cases hnul : '\x00' ∈ path
  · simp [hnul]
  · simp only [hnul, ite_false, not_false_eq_true, true_and, map_ok]

/-- The names from the root down to `d`, none of them a link. -/
inductive Descends (fs : FileSystem D) : List Bytes → D → Prop
  | root : Descends fs [] fs.root
  | into {ns : List Bytes} {d e : D} {n : Bytes} : Descends fs ns d → fs.lookup d n = some e → fs.isSymlink e = false →
      Descends fs (ns ++ [n]) e

section
variable {ns : List Bytes} {d e : D}

theorem Descends.loc (h : Descends fs ns d) : fs.loc d = ns := by
  induction h with
  | root => exact fs.root_loc
  | into _ hl _ ih => rw [fs.lookup_loc hl, ih]

theorem Descends.names (h : Descends fs ns d) : ∀ n ∈ ns, IsEntryName n := by
  induction h with
  | root => simp
  | into _ hl _ ih =>
    rw [List.forall_mem_append, List.forall_mem_singleton]
    exact ⟨ih, fs.lookup_name hl⟩

theorem Descends.parent (h : Descends fs ns d) : Descends fs ns.dropLast (fs.parent d) := by
  cases h with
  | root =>
    rw [fs.root_parent]
    exact .root
  | into h hl _ =>
    rw [List.dropLast_concat, fs.lookup_parent hl]
    exact h

theorem Descends.resolves (h : Descends fs ns d) : ∃ vis, Resolves fs fs.root (ns.map .name) [] vis d := by
  induction h with
  | root => exact ⟨[], .done⟩
  | into _ hl hs ih =>
    obtain ⟨vis, hr⟩ := ih
    rw [List.map_append]
    exact ⟨_, hr.snoc hl hs⟩

/-- An object that was found by a path that can be read. -/
def Found (fs : FileSystem D) (d : D) : Prop := (∃ ns, Descends fs ns d) ∧ fs.Short d

theorem Found.root : Found fs fs.root := ⟨⟨_, .root⟩, short_root⟩

theorem length_pathOf_parent : (fs.pathOf (fs.parent d)).length ≤ (fs.pathOf d).length := by
  unfold FileSystem.pathOf
  rw [fs.parent_loc]
  obtain hloc | ⟨front, n, hloc⟩ := List.eq_nil_or_concat (fs.loc d)
  · rw [hloc]
    exact Nat.le_refl _
  · rw [hloc, List.concat_eq_append, List.dropLast_concat, if_neg (by simp : front ++ [n] ≠ []), List.flatMap_append]
    split
    · simp; omega
    · simp

theorem Found.parent (h : Found fs d) : Found fs (fs.parent d) := by
  obtain ⟨⟨ns, hd⟩, hshort⟩ := h
  exact ⟨⟨_, hd.parent⟩, Nat.lt_of_le_of_lt length_pathOf_parent hshort⟩

theorem short_iff {n : Bytes} (hl : fs.lookup d n = some e) : fs.Short e ↔ fs.far d n = false := by
  unfold FileSystem.Short FileSystem.pathOf FileSystem.far
  rw [fs.lookup_loc hl, if_neg (by simp), decide_eq_false_iff_not, Nat.not_le]

theorem Found.entry {n : Bytes} (h : Found fs d) (hfar : fs.far d n = false) (hl : fs.lookup d n = some e)
    (hs : fs.isSymlink e = false) : Found fs e := by
  obtain ⟨⟨ns, hd⟩, -⟩ := h
  exact ⟨⟨_, .into hd hl hs⟩, (short_iff hl).mpr hfar⟩

theorem LeadsTo.found {path : Str} (h : LeadsTo fs path d) : Found fs d := by
  obtain ⟨-, h⟩ := h
  unfold FileSystem.canonicalEntry at h
  split at h
  · cases h
  · split at h
    · cases h
    · have hbase : fs.base fs.root (Utf8.encode path) = fs.root := ite_self _
      have hfollow := (walkTo_ok.mp h).1
      rw [hbase] at hfollow
      exact followIn_induction .root (fun h => h.parent) (fun h hfar hl hs => h.entry hfar hl hs) .root hfollow

theorem LeadsTo.descends {path : Str} (h : LeadsTo fs path d) : Descends fs (fs.loc d) d := by
  obtain ⟨⟨ns, hd⟩, -⟩ := h.found
  rwa [hd.loc]

/-! ### Its text -/

theorem flatMap_slash : ∀ {ns : List Bytes}, ns ≠ [] → ns.flatMap (slash :: ·) = List.intercalate [slash] ([] :: ns)
  | [], h => absurd rfl h
  | [n], _ => by simp [List.intercalate_cons_cons]
  | n :: m :: ns, _ => by
    have ih := flatMap_slash (List.cons_ne_nil m ns)
    rw [List.intercalate_cons_cons] at ih
    rw [List.flatMap_cons, ih, List.intercalate_cons_cons, List.intercalate_cons_cons]
    simp

theorem splitOn_pathOf (h : Descends fs ns d) :
    (fs.pathOf d).splitOn slash = if ns = [] then [[], []] else [] :: ns := by
  unfold FileSystem.pathOf
  rw [h.loc]
  split
  · rfl
  · next hne =>
    rw [flatMap_slash hne]
    refine List.splitOn_intercalate slash (fun l hl => ?_) (List.cons_ne_nil _ _)
    rcases List.mem_cons.mp hl with rfl | hl
    · exact List.not_mem_nil
    · exact (h.names l hl).no_slash

theorem segments_pathOf (h : Descends fs ns d) : segments (fs.pathOf d) = ns.map .name := by
  have hname : ∀ n ∈ ns, segment? n = some (.name n) := fun n hn => by
    have := h.names n hn
    simp [segment?, this.ne_nil, this.ne_dot, this.ne_dotdot]
  have hnil : segment? [] = none := rfl
  rw [segments, splitOn_pathOf h]
  split
  · next hne => simp [hne, hnil]
  · rw [List.filterMap_cons, hnil]
    dsimp only
    rw [← List.filterMap_eq_map]
    exact List.filterMap_congr hname

theorem not_nul_pathOf (h : Descends fs ns d) : 0 ∉ fs.pathOf d := by
  unfold FileSystem.pathOf
  rw [h.loc]
  split
  · decide
  · intro hmem
    obtain ⟨n, hn, hzero⟩ := List.mem_flatMap.mp hmem
    rcases List.mem_cons.mp hzero with hzero | hzero
    · exact absurd hzero (by decide)
    · exact (h.names n hn).no_nul hzero

theorem pathOf_ne_nil : fs.pathOf d ≠ [] := by
  unfold FileSystem.pathOf
  split
  · simp
  · next hne =>
    obtain ⟨n, ns, hn⟩ := List.exists_cons_of_ne_nil hne
    simp [hn]

/-- The root's path alone says that it names a directory. -/
theorem kind_of_namesDirectory (h : Descends fs ns d) (hdir : namesDirectory (fs.pathOf d) = true) :
    fs.kind d = .dir := by
  rw [namesDirectory, splitOn_pathOf h] at hdir
  split at hdir
  · next hns =>
    have hroot : fs.loc d = [] := h.loc.trans hns
    cases h with
    | root => exact fs.root_dir
    | into => simp at hns
  · next hns =>
    obtain ⟨front, n, rfl⟩ := List.eq_nil_or_concat ns |>.resolve_left hns
    rw [List.concat_eq_append, ← List.cons_append, List.getLast?_concat] at hdir
    have hn := h.names n (by simp)
    simp [hn.ne_nil, hn.ne_dot] at hdir

theorem Descends.short_visited (h : Descends fs ns d) (hshort : fs.Short d) :
    ∃ vis, Resolves fs fs.root (ns.map .name) [] vis d ∧ ∀ v ∈ vis, fs.Short v := by
  induction h with
  | root => exact ⟨[], .done, by simp⟩
  | @into ns d e n hd hl hs ih =>
    have hparent : fs.Short d := fs.lookup_parent hl ▸ Nat.lt_of_le_of_lt length_pathOf_parent hshort
    obtain ⟨vis, hr, hvis⟩ := ih hparent
    rw [List.map_append]
    exact ⟨_, hr.snoc hl hs, List.forall_mem_append.mpr ⟨hvis, List.forall_mem_singleton.mpr hshort⟩⟩

/-- The path of an object, where it is text and not too long, leads to it. -/
theorem leadsTo_pathOf {q : Str} (h : Descends fs ns d) (hq : Utf8.encode q = fs.pathOf d) (hshort : fs.Short d) :
    LeadsTo fs q d := by
  refine ⟨fun hnul => not_nul_pathOf h (hq ▸ (Utf8.mem_encode_ascii (by decide)).mpr hnul), ?_⟩
  obtain ⟨vis, hr, hvis⟩ := h.short_visited hshort
  have hbase : fs.base fs.root (fs.pathOf d) = fs.root := ite_self _
  have hnear : ∀ {c v n}, fs.lookup c n = some v → fs.far c n = true → ([] : List Bytes) = [] ∧ v ∉ vis := by
    intro c v n hl hfar
    refine ⟨rfl, fun hv => ?_⟩
    rw [(short_iff hl).mp (hvis v hv)] at hfar
    cases hfar
  unfold FileSystem.canonicalEntry
  rw [hq, if_neg pathOf_ne_nil, if_neg fun h => Nat.not_le.mpr hshort h.2, walkTo_ok, hbase, segments_pathOf h]
  exact ⟨hr.followIn hnear (.inr (by simp)) (Nat.zero_le _), kind_of_namesDirectory h⟩

end

/-! ## Validating again -/

/-- Where the path of the object `d` is no text, what is written for it leads to
nothing or to an object written the same. -/
def Steady (fs : FileSystem D) (d : D) : Prop :=
  Utf8.decode? (fs.pathOf d) = none →
    fs.realpath (fs.canonicalPath d) = .error .ENOENT ∨ fs.realpath (fs.canonicalPath d) = .ok (fs.canonicalPath d)

/-- A listed path that validation would leave as it has put it. -/
def Stays (fs : FileSystem D) (path : Str) : Prop :=
  EntryOk fs (canonicalText fs path) ∧ canonicalText fs (canonicalText fs path) = canonicalText fs path

/-- A steady object's path is found, if at all, as it is written. -/
theorem Steady.realpath {d : D} (hd : Found fs d) (h : Steady fs d) :
    fs.realpath (fs.canonicalPath d) = .error .ENOENT ∨
      fs.realpath (fs.canonicalPath d) = .ok (fs.canonicalPath d) := by
  obtain ⟨⟨ns, hd⟩, hshort⟩ := hd
  cases hdec : Utf8.decode? (fs.pathOf d) with
  | none => exact h hdec
  | some s =>
    have henc := Utf8.decode?_eq_some.mp hdec
    have hpath : fs.canonicalPath d = s := by rw [FileSystem.canonicalPath, ← henc, Utf8.lossy_encode]
    refine .inr (realpath_ok.mpr ⟨d, ?_, rfl⟩)
    rw [hpath]
    exact leadsTo_pathOf hd henc hshort

theorem stays_iff {path : Str} (h : EntryOk fs path) : Stays fs path ↔ ∀ d, LeadsTo fs path d → Steady fs d := by
  unfold Stays
  rcases h.found with ⟨p, hp⟩ | hmissing
  · have htext : canonicalText fs path = p := by rw [canonicalText, hp]
    rw [htext]
    constructor
    · rintro ⟨hentry, hsame⟩ d hd
      obtain rfl : fs.canonicalPath d = p := Except.ok.inj ((realpath_ok.mpr ⟨d, hd, rfl⟩).symm.trans hp)
      intro _
      rcases hentry.found with ⟨p, hp⟩ | hmissing
      · rw [canonicalText, hp] at hsame
        exact .inr (hsame ▸ hp)
      · exact .inl hmissing
    · intro hall
      obtain ⟨d, hd, rfl⟩ := realpath_ok.mp hp
      rcases (hall d hd).realpath hd.found with hq | hq
      · exact ⟨⟨isAbsolute_canonicalPath, .inr hq⟩, by rw [canonicalText, hq]⟩
      · exact ⟨⟨isAbsolute_canonicalPath, .inl ⟨_, hq⟩⟩, by rw [canonicalText, hq]⟩
  · have htext : canonicalText fs path = path := by rw [canonicalText, hmissing]
    rw [htext]
    refine ⟨fun _ d hd => ?_, fun _ => ⟨h, htext⟩⟩
    rw [realpath_ok.mpr ⟨d, hd, rfl⟩] at hmissing
    cases hmissing

/-- The config of a flag of a tool, or of its positionals. -/
def SecureSudoersPolicy.configAt (policy : SecureSudoersPolicy) (name : Str) (flag : Option Str) :
    Option ParameterConfig :=
  (policy.tools.get name).bind fun tool =>
    match flag with
    | some flag => tool.parameters.get flag
    | none => tool.positional

/-- The paths a policy lists. -/
def SecureSudoersPolicy.Lists (policy : SecureSudoersPolicy) (path : Str) : Prop :=
  path ∈ policy.globalSettings.blockedPaths ∨
    ∃ name flag config, policy.configAt name flag = some config ∧ path ∈ config.listed

theorem HashMap.get_mapValues {V : Type} {f : V → V} {m : HashMap V} {k : Str} :
    (m.mapValues f).get k = (m.get k).map f := by
  have hkey : ((fun entry : Str × V => entry.1 == k) ∘ fun entry : Str × V => (entry.1, f entry.2)) =
      fun entry : Str × V => entry.1 == k := rfl
  rw [HashMap.get, HashMap.mapValues, List.find?_map, hkey, HashMap.get, Option.map_map, Option.map_map]
  rfl

theorem configAt_canonical {policy : SecureSudoersPolicy} {name : Str} {flag : Option Str} :
    (policy.canonical fs regexNew).configAt name flag =
      (policy.configAt name flag).map (ParameterConfig.canonical fs regexNew) := by
  unfold SecureSudoersPolicy.configAt
  simp only [SecureSudoersPolicy.canonical, HashMap.get_mapValues]
  cases policy.tools.get name with
  | none => rfl
  | some tool =>
    cases flag with
    | none => rfl
    | some flag => exact HashMap.get_mapValues

theorem listed_canonical {config : ParameterConfig} :
    (config.canonical fs regexNew).listed = config.listed.map (canonicalText fs) := by
  unfold ParameterConfig.listed ParameterConfig.canonical
  by_cases hpath : config.paramType = .path
  · simp only [hpath, ite_true]
    cases config.allowed <;> cases config.disallowed <;> simp
  · simp [hpath]

/-- A config whose entries all stay is its own canonical form. -/
theorem canonical_eq_self {config : ParameterConfig} (hregex : config.compiledRegex = config.regex.bind regexNew) :
    config.canonical fs regexNew = config ↔ ∀ entry ∈ config.listed, canonicalText fs entry = entry := by
  obtain ⟨paramType, sensitive, regex, compiledRegex, allowed, disallowed, help⟩ := config
  dsimp only at hregex
  subst hregex
  have hlist : ∀ list : Option (List Str), list.map (List.map (canonicalText fs)) = list ↔
      ∀ entry ∈ list.getD [], canonicalText fs entry = entry := by
    intro list
    cases list with
    | none => simp
    | some entries =>
      have hid := List.map_inj_left (f := canonicalText fs) (g := id) (l := entries)
      rw [List.map_id] at hid
      rw [Option.map_some, Option.some.injEq, Option.getD_some]
      exact hid
  unfold ParameterConfig.canonical ParameterConfig.listed
  by_cases hpath : paramType = .path
  · simp only [hpath, ite_true, ParameterConfig.mk.injEq, true_and, and_true, List.forall_mem_append]
    exact and_congr (hlist allowed) (hlist disallowed)
  · simp [hpath]

theorem configOk_canonical {config : ParameterConfig} (h : ConfigOk fs regexNew config) :
    ConfigOk fs regexNew (config.canonical fs regexNew) ↔
      ∀ entry ∈ config.listed, EntryOk fs (canonicalText fs entry) := by
  constructor
  · intro hc
    have hentries := hc.entries
    rwa [listed_canonical, List.forall_mem_map] at hentries
  · intro hentries
    refine ⟨h.regex, ?_⟩
    rwa [listed_canonical, List.forall_mem_map]

theorem config_again {config : ParameterConfig} (h : ConfigOk fs regexNew config) :
    (ConfigOk fs regexNew (config.canonical fs regexNew) ∧
      (config.canonical fs regexNew).canonical fs regexNew = config.canonical fs regexNew) ↔
      ∀ entry ∈ config.listed, Stays fs entry := by
  rw [configOk_canonical h, canonical_eq_self rfl, listed_canonical, List.forall_mem_map]
  exact ⟨fun h entry hentry => ⟨h.1 entry hentry, h.2 entry hentry⟩,
    fun h => ⟨fun entry hentry => (h entry hentry).1, fun entry hentry => (h entry hentry).2⟩⟩

theorem HashMap.mapValues_eq_self {V : Type} {f : V → V} {m : HashMap V} :
    m.mapValues f = m ↔ ∀ entry ∈ m.entries, f entry.2 = entry.2 := by
  have hid := List.map_inj_left (f := fun entry : Str × V => (entry.1, f entry.2)) (g := id) (l := m.entries)
  rw [List.map_id] at hid
  obtain ⟨entries, hnodup⟩ := m
  rw [HashMap.mapValues, HashMap.mk.injEq, hid]
  refine forall₂_congr fun entry _ => ?_
  rw [id, Prod.ext_iff]
  exact and_iff_right rfl

theorem HashMap.forall_mapValues {V : Type} {f : V → V} {m : HashMap V} {P : Str × V → Prop} :
    (∀ entry ∈ (m.mapValues f).entries, P entry) ↔ ∀ entry ∈ m.entries, P (entry.1, f entry.2) :=
  List.forall_mem_map

theorem forall_mem_optionMap {V : Type} {f : V → V} {o : Option V} {P : V → Prop} :
    (∀ v ∈ o.map f, P v) ↔ ∀ v ∈ o, P (f v) := by
  cases o <;> simp

theorem optionMap_eq_self {V : Type} {f : V → V} {o : Option V} : o.map f = o ↔ ∀ v ∈ o, f v = v := by
  cases o <;> simp

theorem toolOk_canonical {name : Str} {tool : ToolPolicy} (h : ToolOk fs regexNew name tool) :
    ToolOk fs regexNew name (tool.canonical fs regexNew) ↔
      (∀ entry ∈ tool.parameters.entries, ConfigOk fs regexNew (entry.2.canonical fs regexNew)) ∧
        ∀ config ∈ tool.positional, ConfigOk fs regexNew (config.canonical fs regexNew) := by
  constructor
  · intro hc
    exact ⟨HashMap.forall_mapValues.mp hc.parameters, forall_mem_optionMap.mp hc.positional⟩
  · intro ⟨hp, hpos⟩
    exact ⟨h.name_valid, h.binary_absolute, HashMap.forall_mapValues.mpr hp, forall_mem_optionMap.mpr hpos⟩

theorem tool_canonical_eq_self {tool : ToolPolicy} : tool.canonical fs regexNew = tool ↔
    (∀ entry ∈ tool.parameters.entries, entry.2.canonical fs regexNew = entry.2) ∧
      ∀ config ∈ tool.positional, config.canonical fs regexNew = config := by
  rw [← HashMap.mapValues_eq_self, ← optionMap_eq_self]
  obtain ⟨id, realBinary, verbs, parameters, positional, helpDescription, isolation, envWhitelist⟩ := tool
  simp only [ToolPolicy.canonical, ToolPolicy.mk.injEq, true_and, and_true]

theorem tool_again {name : Str} {tool : ToolPolicy} (h : ToolOk fs regexNew name tool) :
    (ToolOk fs regexNew name (tool.canonical fs regexNew) ∧
      (tool.canonical fs regexNew).canonical fs regexNew = tool.canonical fs regexNew) ↔
      (∀ entry ∈ tool.parameters.entries, ∀ path ∈ entry.2.listed, Stays fs path) ∧
        ∀ config ∈ tool.positional, ∀ path ∈ config.listed, Stays fs path := by
  have hparameters : (∀ entry ∈ (tool.canonical fs regexNew).parameters.entries,
      entry.2.canonical fs regexNew = entry.2) ↔ ∀ entry ∈ tool.parameters.entries,
        (entry.2.canonical fs regexNew).canonical fs regexNew = entry.2.canonical fs regexNew :=
    HashMap.forall_mapValues
  have hpositional : (∀ config ∈ (tool.canonical fs regexNew).positional, config.canonical fs regexNew = config) ↔
      ∀ config ∈ tool.positional, (config.canonical fs regexNew).canonical fs regexNew = config.canonical fs regexNew :=
    forall_mem_optionMap
  rw [toolOk_canonical h, tool_canonical_eq_self, hparameters, hpositional]
  constructor
  · rintro ⟨⟨hp, hpos⟩, hp', hpos'⟩
    exact ⟨fun entry he => (config_again (h.parameters entry he)).mp ⟨hp entry he, hp' entry he⟩,
      fun config hc => (config_again (h.positional config hc)).mp ⟨hpos config hc, hpos' config hc⟩⟩
  · rintro ⟨hp, hpos⟩
    have hparam := fun entry he => (config_again (h.parameters entry he)).mpr (hp entry he)
    have hposit := fun config hc => (config_again (h.positional config hc)).mpr (hpos config hc)
    exact ⟨⟨fun entry he => (hparam entry he).1, fun config hc => (hposit config hc).1⟩,
      fun entry he => (hparam entry he).2, fun config hc => (hposit config hc).2⟩

theorem policy_canonical_eq_self {policy : SecureSudoersPolicy} : policy.canonical fs regexNew = policy ↔
    (∀ path ∈ policy.globalSettings.blockedPaths, canonicalText fs path = path) ∧
      ∀ entry ∈ policy.tools.entries, entry.2.canonical fs regexNew = entry.2 := by
  have hid := List.map_inj_left (f := canonicalText fs) (g := id) (l := policy.globalSettings.blockedPaths)
  rw [List.map_id] at hid
  refine Iff.trans ?_ (and_congr hid HashMap.mapValues_eq_self)
  obtain ⟨version, serial, ⟨_, _, _, _, _, blockedPaths, _, _⟩, tools⟩ := policy
  simp only [SecureSudoersPolicy.canonical, SecureSudoersPolicy.mk.injEq, GlobalSettings.mk.injEq, true_and, and_true]

theorem lists_iff {policy : SecureSudoersPolicy} {path : Str} : policy.Lists path ↔
    path ∈ policy.globalSettings.blockedPaths ∨ ∃ entry ∈ policy.tools.entries,
      (∃ parameter ∈ entry.2.parameters.entries, path ∈ parameter.2.listed) ∨
        ∃ config ∈ entry.2.positional, path ∈ config.listed := by
  refine or_congr_right ⟨?_, ?_⟩
  · rintro ⟨name, flag, config, hconfig, hpath⟩
    obtain ⟨tool, htool, hconfig⟩ := Option.bind_eq_some_iff.mp hconfig
    refine ⟨(name, tool), HashMap.mem_of_get htool, ?_⟩
    cases flag with
    | some flag => exact .inl ⟨(flag, config), HashMap.mem_of_get hconfig, hpath⟩
    | none => exact .inr ⟨config, hconfig, hpath⟩
  · rintro ⟨⟨name, tool⟩, htool, ⟨⟨flag, config⟩, hconfig, hpath⟩ | ⟨config, hconfig, hpath⟩⟩
    · exact ⟨name, some flag, config, Option.bind_eq_some_iff.mpr
        ⟨tool, HashMap.get_of_mem htool, HashMap.get_of_mem hconfig⟩, hpath⟩
    · exact ⟨name, none, config, Option.bind_eq_some_iff.mpr ⟨tool, HashMap.get_of_mem htool, hconfig⟩, hpath⟩

theorem policyOk_canonical {policy : SecureSudoersPolicy} (h : PolicyOk fs regexNew policy) :
    PolicyOk fs regexNew (policy.canonical fs regexNew) ↔
      (∀ path ∈ policy.globalSettings.blockedPaths, EntryOk fs (canonicalText fs path)) ∧
        ∀ entry ∈ policy.tools.entries, ToolOk fs regexNew entry.1 (entry.2.canonical fs regexNew) := by
  constructor
  · intro hc
    exact ⟨List.forall_mem_map.mp hc.blocked, HashMap.forall_mapValues.mp hc.tools⟩
  · intro ⟨hblocked, htools⟩
    exact ⟨h.safeArgRegex, List.forall_mem_map.mpr hblocked, HashMap.forall_mapValues.mpr htools⟩

/-- A listed path of an accepted policy is found, if it is there. -/
theorem PolicyOk.entryOk {policy : SecureSudoersPolicy} (h : PolicyOk fs regexNew policy) {path : Str}
    (hpath : policy.Lists path) : EntryOk fs path := by
  rcases lists_iff.mp hpath with hblocked | ⟨tool, htool, ⟨parameter, hparameter, hpath⟩ | ⟨config, hconfig, hpath⟩⟩
  · exact h.blocked path hblocked
  · exact ((h.tools tool htool).parameters parameter hparameter).entries path hpath
  · exact ((h.tools tool htool).positional config hconfig).entries path hpath

/-- **An accepted policy is accepted again, unchanged,** exactly when every
listed path leads to a steady object, if to any. -/
theorem validate_again {policy : SecureSudoersPolicy} (h : PolicyOk fs regexNew policy) :
    (policy.canonical fs regexNew).validate fs regexNew = .ok (policy.canonical fs regexNew) ↔
      ∀ path, policy.Lists path → ∀ d, LeadsTo fs path d → Steady fs d := by
  have htools : (∀ entry ∈ (policy.canonical fs regexNew).tools.entries, entry.2.canonical fs regexNew = entry.2) ↔
      ∀ entry ∈ policy.tools.entries,
        (entry.2.canonical fs regexNew).canonical fs regexNew = entry.2.canonical fs regexNew :=
    HashMap.forall_mapValues
  have hblocked : (∀ path ∈ (policy.canonical fs regexNew).globalSettings.blockedPaths, canonicalText fs path = path) ↔
      ∀ path ∈ policy.globalSettings.blockedPaths, canonicalText fs (canonicalText fs path) = canonicalText fs path :=
    List.forall_mem_map
  have hagain : (∀ path, policy.Lists path → ∀ d, LeadsTo fs path d → Steady fs d) ↔
      ∀ path, policy.Lists path → Stays fs path :=
    forall₂_congr fun path hpath => (stays_iff (h.entryOk hpath)).symm
  rw [validate_ok, eq_comm (a := policy.canonical fs regexNew), policy_canonical_eq_self, policyOk_canonical h, htools,
    hblocked, hagain]
  constructor
  · rintro ⟨⟨hb, ht⟩, hb', ht'⟩ path hpath
    rcases lists_iff.mp hpath with hpath | ⟨entry, hentry, hpath⟩
    · exact ⟨hb path hpath, hb' path hpath⟩
    · obtain ⟨hparams, hpos⟩ := (tool_again (h.tools entry hentry)).mp ⟨ht entry hentry, ht' entry hentry⟩
      rcases hpath with ⟨parameter, hparameter, hpath⟩ | ⟨config, hconfig, hpath⟩
      · exact hparams parameter hparameter path hpath
      · exact hpos config hconfig path hpath
  · intro hall
    have htool := fun entry hentry => (tool_again (h.tools entry hentry)).mpr
      ⟨fun parameter hparameter path hpath =>
          hall path (lists_iff.mpr (.inr ⟨entry, hentry, .inl ⟨_, hparameter, hpath⟩⟩)),
        fun config hconfig path hpath => hall path (lists_iff.mpr (.inr ⟨entry, hentry, .inr ⟨_, hconfig, hpath⟩⟩))⟩
    exact ⟨⟨fun path hpath => (hall path (.inl hpath)).1, fun entry hentry => (htool entry hentry).1⟩,
      fun path hpath => (hall path (.inl hpath)).2, fun entry hentry => (htool entry hentry).2⟩

/-- What is documented of validation: the policies it accepts, the patterns it
leaves compiled, and that it has nothing left to change. -/
structure Documented (fs : FileSystem D) (regexNew : Str → Option Regex) (policy : SecureSudoersPolicy) : Prop where
  accepts : (∃ policy', policy.validate fs regexNew = .ok policy') ↔ WellFormed fs regexNew policy
  compiled : ∀ policy', policy.validate fs regexNew = .ok policy' → ∀ name flag config,
    policy'.configAt name flag = some config →
      config.compiledRegex = config.regex.bind regexNew ∧ config.compiledRegex.isSome = config.regex.isSome
  again : ∀ policy', policy.validate fs regexNew = .ok policy' → policy'.validate fs regexNew = .ok policy'

theorem PolicyOk.configOk {policy : SecureSudoersPolicy} (h : PolicyOk fs regexNew policy) {name : Str}
    {flag : Option Str} {config : ParameterConfig} (hc : policy.configAt name flag = some config) :
    ConfigOk fs regexNew config := by
  obtain ⟨tool, htool, hc⟩ := Option.bind_eq_some_iff.mp hc
  have ht := h.tools (name, tool) (HashMap.mem_of_get htool)
  cases flag with
  | some flag => exact ht.parameters (flag, config) (HashMap.mem_of_get hc)
  | none => exact ht.positional config hc

/-- **Validation is as documented exactly when** the policy breaks a rule that
is checked, or has the documented version and lists only paths that lead to
steady objects: the version is not checked. -/
theorem documented_iff {policy : SecureSudoersPolicy} : Documented fs regexNew policy ↔
    (PolicyOk fs regexNew policy →
      policy.version = "1.0" ∧ ∀ path, policy.Lists path → ∀ d, LeadsTo fs path d → Steady fs d) := by
  constructor
  · intro h hok
    have hvalid : policy.validate fs regexNew = .ok (policy.canonical fs regexNew) := validate_ok.mpr ⟨hok, rfl⟩
    exact ⟨(h.accepts.mp ⟨_, hvalid⟩).version, (validate_again hok).mp (h.again _ hvalid)⟩
  · intro h
    refine ⟨⟨?_, fun hform => ⟨_, validate_ok.mpr ⟨hform.toPolicyOk, rfl⟩⟩⟩, ?_, ?_⟩
    · rintro ⟨policy', hvalid⟩
      have hok := (validate_ok.mp hvalid).1
      exact ⟨hok, (h hok).1⟩
    · intro policy' hvalid name flag config hc
      obtain ⟨hok, rfl⟩ := validate_ok.mp hvalid
      rw [configAt_canonical] at hc
      obtain ⟨original, horiginal, rfl⟩ := Option.map_eq_some_iff.mp hc
      refine ⟨rfl, ?_⟩
      have hcompiles := (hok.configOk horiginal).regex
      show (original.regex.bind regexNew).isSome = original.regex.isSome
      cases hregex : original.regex with
      | none => rfl
      | some pattern => exact hcompiles pattern hregex
    · intro policy' hvalid
      obtain ⟨hok, rfl⟩ := validate_ok.mp hvalid
      exact (validate_again hok).mpr (h hok).2

/-- A policy of another version that lists nothing. -/
def versionTwo : SecureSudoersPolicy := { version := "2.0", globalSettings := { blockedPaths := [] }, tools := .empty }

theorem version_unchecked : ¬∀ (fs : FileSystem Nat) (regexNew : Str → Option Regex) (policy : SecureSudoersPolicy),
    Documented fs regexNew policy := by
  intro h
  have hok : PolicyOk binaryTarget defaultRegexNew versionTwo :=
    ⟨by decide, by simp [versionTwo], by simp [versionTwo, HashMap.empty]⟩
  have hversion := (documented_iff.mp (h binaryTarget defaultRegexNew versionTwo) hok).1
  exact absurd hversion (by decide)

end SecureSudoers
