/-
The rules of a `Path`-typed config against the objects its entries name
(`models.rs`, `validator/helpers.rs`). Entries and arguments are resolved by two
different functions, once and then for each command, and compared as texts.

The texts agree on what is text. An entry can also lead to an object whose path
is none; it is written with U+FFFD then, and stands for another object.
-/
import SecureSudoers.PolicyForm
import SecureSudoers.Retraversal
import SecureSudoers.Validator

namespace SecureSudoers

variable {D : Type} {fs : FileSystem D} {regexNew : Str → Option Regex}

/-- The entry exists, and its object has the path of `d`. -/
def NamesPathOf (fs : FileSystem D) (entry : Str) (d : D) : Prop :=
  ∃ e, LeadsTo fs entry e ∧ fs.pathOf e = fs.pathOf d

/-- What the lists of a config are to decide of a resolved argument. -/
structure ListsDecide (fs : FileSystem D) (config : ParameterConfig) (p : SecurePath D)
    (outcome : Except Error (SecurePath D)) : Prop where
  denied : (∃ entry ∈ config.disallowed.getD [], NamesPathOf fs entry p.fd) → ∃ e, outcome = .error e
  accepted : (¬∃ entry ∈ config.disallowed.getD [], NamesPathOf fs entry p.fd) →
    (∃ entry ∈ config.allowed.getD [], NamesPathOf fs entry p.fd) → outcome = .ok p

theorem Trail.descends {blockedPaths : List Str} {ns : List Str} {vis : List D} {d : D}
    (h : Trail fs blockedPaths ns vis d) : Descends fs (ns.map Utf8.encode) d := by
  induction h with
  | root => exact .root
  | into _ hl hs _ ih =>
    rw [List.map_append]
    exact .into ih hl hs

/-- The text of a validated path is the path of its object. -/
theorem encode_checkPath {arg : Str} {context : ValidationContext} {blockedPaths : List Str} {p : SecurePath D}
    (h : checkPath fs arg context blockedPaths = .ok p) : Utf8.encode p.path = fs.pathOf p.fd := by
  obtain ⟨ns, vis, ht, hp⟩ := checkPath_trail h
  rw [hp, pathOf_of_loc ht.loc]

/-- A validated path is not missing. -/
theorem checkPath_found {arg : Str} {context : ValidationContext} {blockedPaths : List Str} {p : SecurePath D}
    (h : checkPath fs arg context blockedPaths = .ok p) : fs.realpath p.path ≠ .error .ENOENT := by
  intro hmissing
  obtain ⟨ns, vis, ht, -⟩ := checkPath_trail h
  obtain ⟨-, -, -, -, -, -, -, -, hshort⟩ := checkPath_accepts.mp h
  have hleads := leadsTo_pathOf ht.descends (encode_checkPath h) hshort
  rw [realpath_ok.mpr ⟨p.fd, hleads, rfl⟩] at hmissing
  cases hmissing

/-- An entry is written as a resolved argument exactly when it leads to an object of the same text. -/
theorem canonicalText_eq {arg : Str} {context : ValidationContext} {blockedPaths : List Str} {p : SecurePath D}
    (h : checkPath fs arg context blockedPaths = .ok p) {entry : Str} (hentry : EntryOk fs entry) :
    canonicalText fs entry = p.path ↔ ∃ e, LeadsTo fs entry e ∧ fs.canonicalPath e = p.path := by
  constructor
  · intro htext
    rcases hentry.found with ⟨q, hq⟩ | hmissing
    · rw [canonicalText, hq] at htext
      exact realpath_ok.mp (htext ▸ hq)
    · have hsame : canonicalText fs entry = entry := by rw [canonicalText, hmissing]
      exact absurd (htext.symm.trans hsame ▸ hmissing) (checkPath_found h)
  · intro hleads
    rw [canonicalText, realpath_ok.mpr hleads]

section
variable {config : ParameterConfig} {val : Str}

theorem disallowed_canonical (hpath : config.paramType = .path) :
    (config.canonical fs regexNew).isExplicitlyDisallowed val = true ↔
      ∃ entry ∈ config.disallowed.getD [], canonicalText fs entry = val := by
  unfold ParameterConfig.isExplicitlyDisallowed ParameterConfig.canonical
  cases config.disallowed with
  | none => simp
  | some entries => simp [hpath]

theorem allowed_canonical (hpath : config.paramType = .path)
    (h : ∃ entry ∈ config.allowed.getD [], canonicalText fs entry = val) :
    (config.canonical fs regexNew).matchesAllowedOrRegex val = true := by
  obtain ⟨entry, hentry, htext⟩ := h
  unfold ParameterConfig.matchesAllowedOrRegex ParameterConfig.canonical
  cases hallowed : config.allowed with
  | none => simp [hallowed] at hentry
  | some entries =>
    have hany : (entries.map (canonicalText fs)).any (· == val) = true := by
      rw [List.any_eq_true]
      exact ⟨_, List.mem_map_of_mem (by simpa [hallowed] using hentry), by simp [htext]⟩
    simp only [hpath, ite_true, Option.map_some, hany]
    cases config.regex <;> simp

theorem mem_listed (hpath : config.paramType = .path) {entry : Str} :
    entry ∈ config.listed ↔ entry ∈ config.allowed.getD [] ∨ entry ∈ config.disallowed.getD [] := by
  rw [ParameterConfig.listed, if_pos hpath, List.mem_append]

end

/-- Some disallowed entry leads to another object, whose path is no text and is
written like that of `d`, which the lists allow. -/
structure Mistaken (fs : FileSystem D) (config : ParameterConfig) (d : D) : Prop where
  not_disallowed : ¬∃ entry ∈ config.disallowed.getD [], NamesPathOf fs entry d
  allowed : ∃ entry ∈ config.allowed.getD [], NamesPathOf fs entry d
  written : ∃ entry ∈ config.disallowed.getD [], ∃ e, LeadsTo fs entry e ∧ Utf8.decode? (fs.pathOf e) = none ∧
    fs.canonicalPath e = fs.canonicalPath d

/-- **The lists decide by the object, whatever names it,** exactly when no
allowed object is mistaken for a disallowed one whose path is no text. -/
theorem listsDecide_iff {policy policy' : SecureSudoersPolicy} {name : Str} {flag : Option Str}
    {config config' : ParameterConfig} {arg : Str} {context : ValidationContext} {blockedPaths : List Str}
    {p : SecurePath D} {disallowedMsg policyMsg : Str → Bool → Str}
    (hvalid : policy.validate fs regexNew = .ok policy') (hconfig : policy.configAt name flag = some config)
    (hconfig' : policy'.configAt name flag = some config') (hpath : config.paramType = .path)
    (hcheck : checkPath fs arg context blockedPaths = .ok p) :
    ListsDecide fs config p
        (validatePathValue (checkPath fs) arg config' context blockedPaths disallowedMsg policyMsg) ↔
      ¬Mistaken fs config p.fd := by
  obtain ⟨hok, rfl⟩ := validate_ok.mp hvalid
  obtain rfl : config.canonical fs regexNew = config' := by
    rw [configAt_canonical, hconfig] at hconfig'
    exact Option.some.inj hconfig'
  have hentries := (hok.configOk hconfig).entries
  have hp : fs.canonicalPath p.fd = p.path := by
    rw [FileSystem.canonicalPath, ← encode_checkPath hcheck, Utf8.lossy_encode]
  have hwritten : ∀ entry, (entry ∈ config.allowed.getD [] ∨ entry ∈ config.disallowed.getD []) →
      (canonicalText fs entry = p.path ↔ ∃ e, LeadsTo fs entry e ∧ fs.canonicalPath e = p.path) :=
    fun entry hentry => canonicalText_eq hcheck (hentries entry ((mem_listed hpath).mpr hentry))
  have hsame : ∀ entry, NamesPathOf fs entry p.fd → ∃ e, LeadsTo fs entry e ∧ fs.canonicalPath e = p.path := by
    intro entry hnames
    obtain ⟨e, he, hpaths⟩ := hnames
    exact ⟨e, he, by rw [← hp, FileSystem.canonicalPath, hpaths]; rfl⟩
  unfold validatePathValue
  rw [hcheck]
  dsimp only
  by_cases hdis : (config.canonical fs regexNew).isExplicitlyDisallowed p.path = true
  · rw [if_pos hdis]
    obtain ⟨entry, hentry, htext⟩ := (disallowed_canonical hpath).mp hdis
    obtain ⟨e, he, hpe⟩ := (hwritten entry (.inr hentry)).mp htext
    constructor
    · intro h m
      cases h.accepted m.not_disallowed m.allowed
    · intro hnot
      refine ⟨fun _ => ⟨_, rfl⟩, fun hnone hallowed => absurd ⟨hnone, hallowed, entry, hentry, e, he, ?_, ?_⟩ hnot⟩
      · -- a path that is text is the argument's own
        by_contra hdec
        obtain ⟨s, hs⟩ := Option.ne_none_iff_exists'.mp hdec
        have henc := Utf8.decode?_eq_some.mp hs
        have hes : fs.canonicalPath e = s := by rw [FileSystem.canonicalPath, ← henc, Utf8.lossy_encode]
        exact hnone ⟨entry, hentry, e, he, by rw [← henc, ← hes, hpe, encode_checkPath hcheck]⟩
      · rw [hpe, hp]
  · have hnot : ¬∃ entry ∈ config.disallowed.getD [], ∃ e, LeadsTo fs entry e ∧ fs.canonicalPath e = p.path := by
      rintro ⟨entry, hentry, hleads⟩
      exact hdis ((disallowed_canonical hpath).mpr ⟨entry, hentry, (hwritten entry (.inr hentry)).mpr hleads⟩)
    have hnone : ¬∃ entry ∈ config.disallowed.getD [], NamesPathOf fs entry p.fd := by
      rintro ⟨entry, hentry, hnames⟩
      exact hnot ⟨entry, hentry, hsame entry hnames⟩
    rw [if_neg hdis]
    constructor
    · rintro - ⟨-, -, entry, hentry, e, he, -, hpe⟩
      exact hnot ⟨entry, hentry, e, he, hpe.trans hp⟩
    · rintro -
      refine ⟨fun h => absurd h hnone, fun _ hleads => ?_⟩
      obtain ⟨entry, hentry, hnames⟩ := hleads
      have hallowed := @allowed_canonical D fs regexNew config p.path hpath
        ⟨entry, hentry, (hwritten entry (.inl hentry)).mpr (hsame entry hnames)⟩
      simp [hallowed]

/-- A policy of one tool, whose positionals are paths. -/
def positionalPolicy (allowed disallowed : List Str) : SecureSudoersPolicy where
  globalSettings := { blockedPaths := [] }
  tools := .single "ls" { realBinary := "/bin/ls", positional := some (pathConfig allowed disallowed) }
where
  pathConfig (allowed disallowed : List Str) : ParameterConfig :=
    { paramType := .path, allowed := some allowed, disallowed := some disallowed }

open positionalPolicy in
theorem validate_positionalPolicy {allowed disallowed : List Str}
    (h : ∀ entry ∈ allowed ++ disallowed, EntryOk fs entry) :
    (positionalPolicy allowed disallowed).validate fs defaultRegexNew =
      .ok ((positionalPolicy allowed disallowed).canonical fs defaultRegexNew) := by
  have hconfig : ConfigOk fs defaultRegexNew (pathConfig allowed disallowed) := ⟨by simp [pathConfig], h⟩
  have hregex : (defaultRegexNew defaultSafeArgRegex).isSome = true := by decide
  have hname : isValidToolName "ls" = true := by decide
  have hbinary : Path.isAbsolute "/bin/ls" = true := by decide
  refine validate_ok.mpr ⟨⟨hregex, by simp [positionalPolicy], ?_⟩, rfl⟩
  exact List.forall_mem_singleton.mpr ⟨hname, hbinary, by simp [HashMap.empty], by simpa using hconfig⟩

open positionalPolicy in
/-- `/link` leads to the directory `/data`. -/
theorem listsDecide_link : ListsDecide linkedDir (pathConfig ["/link"] []) ⟨"/data", 1⟩
    (validatePathValue (checkPath linkedDir) "/data"
      ((pathConfig ["/link"] []).canonical linkedDir defaultRegexNew) .positional [] (fun _ _ => [])
      fun _ _ => []) := by
  have hentry : EntryOk linkedDir "/link" := ⟨by decide, .inl ⟨"/data", by rfl⟩⟩
  have hvalid := @validate_positionalPolicy Nat linkedDir ["/link"] [] (by simpa using hentry)
  have hconfig : (positionalPolicy ["/link"] []).configAt "ls" none = some (pathConfig ["/link"] []) := rfl
  have hconfig' := congrArg (Option.map (ParameterConfig.canonical linkedDir defaultRegexNew)) hconfig
  rw [← configAt_canonical] at hconfig'
  refine (listsDecide_iff hvalid hconfig hconfig' rfl (by rfl)).mpr ?_
  rintro ⟨-, -, entry, hmem, -⟩
  simp [pathConfig] at hmem

/-- A directory whose name is no text, a link to it, and the directory whose name it is written with. -/
def unreadable : FileSystem Nat :=
  .ofTree [{ parent := 0, name := [], kind := .dir }, { parent := 0, name := [0xff], kind := .dir },
    { parent := 0, name := Utf8.encode "link", kind := .symlink [0xff] },
    { parent := 0, name := Utf8.encode "\uFFFD", kind := .dir }] (by decide)

open positionalPolicy in
theorem allowed_mistaken :
    ¬∀ (fs : FileSystem Nat) (regexNew : Str → Option Regex) (policy policy' : SecureSudoersPolicy) (name : Str)
      (flag : Option Str) (config config' : ParameterConfig) (arg : Str) (context : ValidationContext)
      (blockedPaths : List Str) (p : SecurePath Nat) (disallowedMsg policyMsg : Str → Bool → Str),
      policy.validate fs regexNew = .ok policy' → policy.configAt name flag = some config →
      policy'.configAt name flag = some config' → config.paramType = .path →
      checkPath fs arg context blockedPaths = .ok p →
      ListsDecide fs config p
        (validatePathValue (checkPath fs) arg config' context blockedPaths disallowedMsg policyMsg) := by
  intro h
  have hallowed : LeadsTo unreadable "/\uFFFD" 3 := ⟨by decide, by rfl⟩
  have hlink : LeadsTo unreadable "/link" 1 := ⟨by decide, by rfl⟩
  have hentries : ∀ entry ∈ (["/\uFFFD", "/link"] : List Str), EntryOk unreadable entry :=
    List.forall_mem_cons.mpr ⟨⟨by decide, .inl ⟨_, realpath_ok.mpr ⟨3, hallowed, rfl⟩⟩⟩,
      List.forall_mem_singleton.mpr ⟨by decide, .inl ⟨_, realpath_ok.mpr ⟨1, hlink, rfl⟩⟩⟩⟩
  have hvalid := @validate_positionalPolicy Nat unreadable ["/\uFFFD"] ["/link"] hentries
  have hconfig : (positionalPolicy ["/\uFFFD"] ["/link"]).configAt "ls" none =
      some (pathConfig ["/\uFFFD"] ["/link"]) := rfl
  have hconfig' := congrArg (Option.map (ParameterConfig.canonical unreadable defaultRegexNew)) hconfig
  rw [← configAt_canonical] at hconfig'
  have hcheck : checkPath unreadable "/\uFFFD" .positional [] = .ok ⟨"/\uFFFD", 3⟩ := by rfl
  have hdecide := h _ _ _ _ _ _ _ _ "/\uFFFD" .positional [] _ (fun _ _ => []) (fun _ _ => []) hvalid hconfig hconfig'
    rfl hcheck
  have hnone : ¬∃ entry ∈ (["/link"] : List Str), NamesPathOf unreadable entry 3 := by
    rintro ⟨entry, hmem, e, ⟨-, he⟩, hpath⟩
    cases List.mem_singleton.mp hmem
    obtain rfl : e = 1 := Except.ok.inj (he.symm.trans hlink.2)
    exact absurd hpath (by decide)
  have hok := hdecide.accepted hnone ⟨"/\uFFFD", List.mem_singleton_self _, 3, hallowed, rfl⟩
  have hdis := (@disallowed_canonical Nat unreadable defaultRegexNew (pathConfig ["/\uFFFD"] ["/link"]) "/\uFFFD"
    rfl).mpr
    ⟨"/link", List.mem_singleton_self _, by rw [canonicalText, realpath_ok.mpr ⟨1, hlink, rfl⟩]; rfl⟩
  unfold validatePathValue at hok
  rw [hcheck] at hok
  dsimp only at hok
  rw [if_pos hdis] at hok
  cases hok

end SecureSudoers
