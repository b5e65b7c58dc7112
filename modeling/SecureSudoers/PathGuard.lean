/-
The traversal that refuses symlinks (`isolation/path_guard.rs`), over a state
`S` that shows a file system and in which the components that are missing may
be created. `make` creates an entry of a directory.

What it reaches is decided by the path's text alone: `safeTraverse_ok`.
-/
import SecureSudoers.Resolution

namespace SecureSudoers

variable {S D : Type}

/-- The components after the root; `..` among them is opened like a name. -/
def pathComponents (pathStr : Str) : List Component := (Path.components pathStr).filter (· ≠ .rootDir)

def endsWithSlash (pathStr : Str) : Bool := pathStr.getLast? == some '/'

/-- One missing component: a file where it is the last and no `/` follows it, else a directory. -/
def makeComponent (make : S → D → Bytes → Kind → Except Errno S) (pathStr : Str) (isLast : Bool) (s : S)
    (currentFd : D) (compStr : Str) : Except Error S :=
  if isLast && !endsWithSlash pathStr then
    match make s currentFd (Utf8.encode compStr) .file with
    | .ok s => .ok s
    | .error .EEXIST => .ok s
    | .error e => .error (.ioContext ("Security failure: cannot create mask file '" ++ pathStr ++ "'") e)
  else
    match make s currentFd (Utf8.encode compStr) .dir with
    | .ok s => .ok s
    | .error .EEXIST => .ok s
    | .error e => .error (.ioContext ("Security failure: cannot create mask dir '" ++ pathStr ++ "'") e)

/-- The loop over the components. -/
def traverse (fs : S → FileSystem D) (make : S → D → Bytes → Kind → Except Errno S) (pathStr : Str) (create : Bool) :
    S → D → List Component → Except Error (S × D)
  | s, currentFd, [] => .ok (s, currentFd)
  | s, currentFd, comp :: rest =>
    let compStr := comp.asOsStr
    let symlink : Error := .security ("Security failure: symlink detected during traversal of '" ++ pathStr ++
      "' at '" ++ compStr ++ "'")
    if '\x00' ∈ compStr then .error (.validation "Nul byte in path component")
    else match (fs s).openat currentFd (Utf8.encode compStr) with
      | .ok next => if (fs s).isSymlink next then .error symlink else traverse fs make pathStr create s next rest
      | .error .ELOOP => .error symlink
      | .error e =>
        if e ≠ .ENOENT ∨ create = false then
          .error (.ioContext ("Security failure: error traversing '" ++ pathStr ++ "' at '" ++ compStr ++ "'") e)
        else do
          let s ← makeComponent make pathStr (rest = []) s currentFd compStr
          match (fs s).openat currentFd (Utf8.encode compStr) with
          | .ok next => traverse fs make pathStr create s next rest
          | .error e => .error (.ioContext ("Security failure: cannot open component '" ++ compStr ++ "' of '" ++
              pathStr ++ "' after creation") e)

def safeTraverse (fs : S → FileSystem D) (make : S → D → Bytes → Kind → Except Errno S) (s : S) (pathStr : Str)
    (create : Bool) : Except Error (S × D) :=
  if Path.isAbsolute pathStr then traverse fs make pathStr create s (fs s).root (pathComponents pathStr)
  else .error (.security ("Security failure: path '" ++ pathStr ++ "' is not absolute"))

/-- `safe_traverse(path, false)`: nothing is created. -/
def openPath (fs : FileSystem D) (pathStr : Str) : Except Error D :=
  (safeTraverse (fun _ : Unit => fs) (fun _ _ _ _ => .error .EACCES) () pathStr false).map Prod.snd

/-- `ensure_path_matches_fd`, with the `fstat` of the descriptor expected. -/
def ensurePathMatchesFd (fs : FileSystem D) (pathStr : Str) (expected : Stat) : Except Error Unit := do
  let currentFd ← openPath fs pathStr
  let current := fs.stat currentFd
  if expected.dev ≠ current.dev ∨ expected.ino ≠ current.ino then
    .error (.security ("Security failure: path '" ++ pathStr ++ "' does not match the expected file descriptor"))
  else .ok ()

/-! ## Where a path leads -/

/-- The location a path without symlinks names. -/
def place (pathStr : Str) : List Bytes := (pathComponents pathStr).foldl step []
where
  step (loc : List Bytes) : Component → List Bytes
    | .normal name => loc ++ [Utf8.encode name]
    | .parentDir => loc.dropLast
    | .rootDir | .curDir => loc

variable {fs : S → FileSystem D} {make : S → D → Bytes → Kind → Except Errno S} {pathStr : Str} {create : Bool}

theorem makeComponent_ok {isLast : Bool} {s s' : S} {fd : D} {compStr : Str}
    (h : makeComponent make pathStr isLast s fd compStr = .ok s') :
    s' = s ∨ ∃ kind, make s fd (Utf8.encode compStr) kind = .ok s' := by
  unfold makeComponent at h
  split at h
  · split at h
    · next hm =>
      cases h
      exact .inr ⟨_, hm⟩
    · cases h
      exact .inl rfl
    · cases h
  · split at h
    · next hm =>
      cases h
      exact .inr ⟨_, hm⟩
    · cases h
      exact .inl rfl
    · cases h

/-- One component of a traversal that succeeds: it is opened, perhaps after having been created. -/
theorem traverse_cons {s : S} {fd : D} {c : Component} {rest : List Component} {r : S × D}
    (h : traverse fs make pathStr create s fd (c :: rest) = .ok r) :
    ∃ s₁ next, '\x00' ∉ c.asOsStr ∧
      (s₁ = s ∨ (create = true ∧ ∃ kind, make s fd (Utf8.encode c.asOsStr) kind = .ok s₁)) ∧
      (fs s₁).openat fd (Utf8.encode c.asOsStr) = .ok next ∧
      traverse fs make pathStr create s₁ next rest = .ok r := by
  unfold traverse at h
  extract_lets compStr symlink at h
  split at h
  · cases h
  · next hnul =>
    split at h
    · next next hopen =>
      split at h
      · cases h
      · exact ⟨s, next, hnul, .inl rfl, hopen, h⟩
    · cases h
    · next e _ hopen =>
      split at h
      · cases h
      · next hcreate =>
        have hc : create = true := Bool.not_eq_false _ |>.mp fun he => hcreate (.inr he)
        obtain ⟨s₁, hm, h⟩ := bind_ok.mp h
        split at h
        · next next hopen' =>
          refine ⟨s₁, next, hnul, ?_, hopen', h⟩
          exact (makeComponent_ok hm).imp_right fun ⟨kind, hk⟩ => ⟨hc, kind, hk⟩
        · cases h

/-- What the creation of an entry preserves, a traversal preserves. -/
theorem traverse_preserves {R : S → S → Prop} (hrefl : ∀ s, R s s) (htrans : ∀ {a b c}, R a b → R b c → R a c)
    (hmake : ∀ {s fd n kind s'}, make s fd n kind = .ok s' → R s s') :
    ∀ {comps : List Component} {s s' : S} {fd fd' : D},
    traverse fs make pathStr create s fd comps = .ok (s', fd') → R s s'
  | [], s, _, _, _, h => by
    cases h
    exact hrefl s
  | c :: rest, s, s', fd, fd', h => by
    obtain ⟨s₁, next, -, hs₁, -, hrest⟩ := traverse_cons h
    have hfirst : R s s₁ := by
      rcases hs₁ with rfl | ⟨-, kind, hk⟩
      · exact hrefl s₁
      · exact hmake hk
    exact htrans hfirst (traverse_preserves hrefl htrans hmake hrest)

theorem openat_loc {fs : FileSystem D} {cur next : D} {c : Component} (hc : Path.Inner c)
    (hnul : '\x00' ∉ c.asOsStr) (h : fs.openat cur (Utf8.encode c.asOsStr) = .ok next) :
    fs.loc next = place.step (fs.loc cur) c := by
  cases c with
  | rootDir | curDir => exact hc.elim
  | parentDir =>
    have hdd : Utf8.encode (Component.asOsStr .parentDir) = dotdot := encode_dotdot
    rw [hdd] at h
    rw [← (FileSystem.openat_dotdot.mp h).2, fs.parent_loc]
    rfl
  | normal name =>
    have hname : IsEntryName (Utf8.encode name) := isEntryName_encode.mpr ⟨hc, hnul⟩
    exact fs.lookup_loc ((FileSystem.openat_ok hname).mp h)

theorem traverse_loc (hloc : ∀ s s' d, (fs s).loc d = (fs s').loc d) :
    ∀ {comps : List Component} {s s' : S} {fd fd' : D}, (∀ c ∈ comps, Path.Inner c) →
    traverse fs make pathStr create s fd comps = .ok (s', fd') →
    (fs s').loc fd' = comps.foldl place.step ((fs s).loc fd)
  | [], _, _, _, _, _, h => by
    cases h
    rfl
  | c :: rest, s, s', fd, fd', hin, h => by
    rw [List.forall_mem_cons] at hin
    obtain ⟨s₁, next, hnul, -, hopen, hrest⟩ := traverse_cons h
    rw [traverse_loc hloc hin.2 hrest, openat_loc hin.1 hnul hopen, hloc s₁ s fd]
    rfl

theorem inner_pathComponents (habs : Path.isAbsolute pathStr = true) : ∀ c ∈ pathComponents pathStr, Path.Inner c := by
  intro c hc
  obtain ⟨hmem, hne⟩ := List.mem_filter.mp hc
  rw [Path.components_abs habs] at hmem
  rcases List.mem_cons.mp hmem with rfl | hmem
  · simp at hne
  · exact Path.inner_of_mem_body hmem

theorem not_nul_pathComponents (habs : Path.isAbsolute pathStr = true) (hnul : '\x00' ∉ pathStr) :
    ∀ c ∈ pathComponents pathStr, '\x00' ∉ c.asOsStr := by
  intro c hc
  obtain ⟨hmem, hne⟩ := List.mem_filter.mp hc
  rw [Path.components_abs habs] at hmem
  rcases List.mem_cons.mp hmem with rfl | hmem
  · simp at hne
  · obtain ⟨piece, hpiece, hc⟩ := List.mem_filterMap.mp hmem
    unfold Path.component? at hc
    split at hc
    · cases hc
    · split at hc
      · cases hc
        decide
      · cases hc
        exact fun h => hnul (Utf8.subset_of_mem_splitOn hpiece h)

theorem pathComponents_render {names : List Str} (h : ∀ n ∈ names, Path.IsName n) :
    pathComponents (Path.render names) = names.map .normal := by
  rw [pathComponents, Path.components_render h]
  simp

theorem foldl_step_normal {names : List Str} {loc : List Bytes} :
    (names.map Component.normal).foldl place.step loc = loc ++ names.map Utf8.encode := by
  induction names generalizing loc with
  | nil => simp
  | cons n names ih => simp [ih, place.step]

/-- **A traversal ends where the text says**, whatever is created on the way. -/
theorem safeTraverse_ok {s s' : S} {fd : D} (hloc : ∀ s s' d, (fs s).loc d = (fs s').loc d)
    (h : safeTraverse fs make s pathStr create = .ok (s', fd)) : (fs s').loc fd = place pathStr := by
  unfold safeTraverse at h
  split at h
  · next habs =>
    rw [traverse_loc hloc (inner_pathComponents habs) h, (fs s).root_loc]
    rfl
  · cases h

theorem safeTraverse_preserves {R : S → S → Prop} {s s' : S} {fd : D} (hrefl : ∀ s, R s s)
    (htrans : ∀ {a b c}, R a b → R b c → R a c)
    (hmake : ∀ {s fd n kind s'}, make s fd n kind = .ok s' → R s s')
    (h : safeTraverse fs make s pathStr create = .ok (s', fd)) : R s s' := by
  unfold safeTraverse at h
  split at h
  · exact traverse_preserves hrefl htrans hmake h
  · cases h

end SecureSudoers
