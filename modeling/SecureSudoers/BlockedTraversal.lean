/-
The blocked paths of an accepted policy, as the isolation walks them.
`validate` (`models.rs`) resolves those that exist and keeps the others as they
are spelled; `safe_traverse` (`path_guard.rs`) creates what is missing and
refuses symlinks. The two do not fit together: a path that does not exist may
be spelled over a symlink (`missing_refused`).

`blockedPaths_pass_iff` says which policies have only paths that pass.
-/
import SecureSudoers.Tree
import SecureSudoers.CheckPath
import SecureSudoers.PolicyValidation

namespace SecureSudoers

variable {D : Type}

/-! ## A file system that grows -/

/-- The object at a location, over names alone. -/
def FileSystem.atLoc (fs : FileSystem D) (q : List Bytes) : Option D := q.foldlM fs.lookup fs.root

/-- A directory's entry as an object. -/
def FileSystem.objectOf (fs : FileSystem D) (d : D) : Object :=
  { kind := fs.kind d, stat := fs.stat d, target_length := fs.target_length d }

/-- The file system as a tree that can be changed. -/
def FileSystem.tree (fs : FileSystem D) : Tree where
  object q := (fs.atLoc q).map fs.objectOf
  root_dir := ⟨fs.objectOf fs.root, rfl, fs.root_dir⟩

/-- `openat` with `O_CREAT | O_EXCL`, or `mkdirat`, of mode 0, by a process that may create files. -/
def Tree.make (t : Tree) (d : List Bytes) (n : Bytes) (kind : Kind) : Except Errno Tree :=
  if t.kindAt d ≠ .dir then .error .ENOTDIR
  else if ¬IsEntryName n ∨ (t.entry d n).isSome then .error .EEXIST
  else if h : kind.targetLength < PATH_MAX then
    .ok (t.set d n (some { kind, stat := { mode := 0 }, target_length := h }))
  else .error ENAMETOOLONG

/-! ## Walks without symlinks -/

/-- From `q` on, no part of the walk leads to a symlink, and no part but the
last to anything else than a directory; what does not exist may be created. -/
def ClearFrom (fs : FileSystem D) (q : List Bytes) (comps : List Component) : Prop :=
  ∀ walked rest, comps = walked ++ rest → ∀ d, fs.atLoc (walked.foldl place.step q) = some d →
    fs.isSymlink d = false ∧ (rest ≠ [] → fs.kind d = .dir)

def Clear (fs : FileSystem D) (path : Str) : Prop := ClearFrom fs [] (pathComponents path)

variable {fs : FileSystem D} {t : Tree} {q : List Bytes}

theorem atLoc_concat {n : Bytes} : fs.atLoc (q ++ [n]) = (fs.atLoc q).bind (fs.lookup · n) := by
  simp [FileSystem.atLoc, List.foldlM_append, bind, pure]

theorem not_isSymlink_of_dir {d : D} (h : fs.kind d = .dir) : fs.isSymlink d = false := by
  rw [FileSystem.isSymlink, h]

theorem clearFrom_nil : ClearFrom fs q [] ↔ ∀ d, fs.atLoc q = some d → fs.isSymlink d = false := by
  constructor
  · intro h d hd
    exact (h [] [] rfl d hd).1
  · intro h walked rest hcomps d hd
    obtain ⟨rfl, rfl⟩ := List.append_eq_nil_iff.mp hcomps.symm
    exact ⟨h d hd, fun hne => absurd rfl hne⟩

theorem clearFrom_cons {c : Component} {rest : List Component} : ClearFrom fs q (c :: rest) ↔
    (∀ d, fs.atLoc q = some d → fs.kind d = .dir) ∧ ClearFrom fs (place.step q c) rest := by
  constructor
  · intro h
    refine ⟨fun d hd => (h [] (c :: rest) rfl d hd).2 (List.cons_ne_nil c rest), fun walked rest' hrest d hd => ?_⟩
    exact h (c :: walked) rest' (by rw [hrest, List.cons_append]) d hd
  · intro ⟨hdir, h⟩ walked rest' hcomps d hd
    cases walked with
    | nil => exact ⟨not_isSymlink_of_dir (hdir d hd), fun _ => hdir d hd⟩
    | cons c' walked =>
      rw [List.cons_append, List.cons.injEq] at hcomps
      obtain ⟨rfl, hrest⟩ := hcomps
      exact h walked rest' hrest d hd

/-! ## What a traversal has created -/

/-- `t` has what `fs` has, and besides it only directories. -/
structure Grown (fs : FileSystem D) (t : Tree) : Prop where
  old {q : List Bytes} {d : D} : fs.atLoc q = some d → t.object q = some (fs.objectOf d)
  new {q : List Bytes} {o : Object} : fs.atLoc q = none → t.object q = some o → o.kind = .dir
  closed {q : List Bytes} {n : Bytes} {o : Object} : t.object (q ++ [n]) = some o → t.kindAt q = .dir

theorem Grown.tree : Grown fs fs.tree where
  old hq := congrArg (Option.map fs.objectOf) hq
  new hq ho := by
    obtain ⟨d, hd, -⟩ := Option.map_eq_some_iff.mp ho
    rw [hq] at hd
    cases hd
  closed {q n o} ho := by
    obtain ⟨d, hd, -⟩ := Option.map_eq_some_iff.mp ho
    rw [atLoc_concat, Option.bind_eq_some_iff] at hd
    obtain ⟨d', hd', hl⟩ := hd
    exact Tree.kindAt_dir.mpr ⟨fs.objectOf d', congrArg (Option.map fs.objectOf) hd', fs.lookup_dir hl⟩

theorem Grown.make (h : Grown fs t) {n : Bytes} {o : Object} (ho : o.kind = .dir) (hq : t.kindAt q = .dir)
    (hnew : t.object (q ++ [n]) = none) : Grown fs (t.set q n (some o)) where
  old {q' d} hd := by
    rw [Tree.object_set, if_neg]
    · exact h.old hd
    · intro he
      rw [← he, h.old hd] at hnew
      cases hnew
  new {q' o'} hq' ho' := by
    rw [Tree.object_set] at ho'
    split at ho'
    · cases ho'
      exact ho
    · exact h.new hq' ho'
  closed {q' n' o'} ho' := by
    have hkeeps : t.KeepsDirs (t.set q n (some o)) := by
      intro q' o' ho' _
      rw [Tree.object_set, if_neg]
      · exact ho'
      · intro he
        rw [he, hnew] at ho'
        cases ho'
    rw [Tree.object_set] at ho'
    split at ho'
    · next he =>
      obtain ⟨rfl, -⟩ := List.append_inj' he rfl
      exact hkeeps.kindAt hq
    · exact hkeeps.kindAt (h.closed ho')

/-- Where a directory is, `fs` has a directory or nothing. -/
theorem Grown.kind_of_dir (h : Grown fs t) (hq : t.kindAt q = .dir) {d : D} (hd : fs.atLoc q = some d) :
    fs.kind d = .dir := by
  rw [Tree.kindAt, h.old hd] at hq
  exact hq

/-- What is neither a directory nor missing is in `fs`. -/
theorem Grown.exists_old (h : Grown fs t) {o : Object} (ho : t.object q = some o) (hk : o.kind ≠ .dir) :
    ∃ d, fs.atLoc q = some d ∧ fs.kind d = o.kind := by
  cases hd : fs.atLoc q with
  | none => exact absurd (h.new hd ho) hk
  | some d =>
    rw [h.old hd] at ho
    cases ho
    exact ⟨d, rfl, rfl⟩

theorem Grown.isSymlink_old (h : Grown fs t) {d : D} (hd : fs.atLoc q = some d) :
    t.fs.isSymlink q = fs.isSymlink d := by
  have hk : t.fs.kind q = fs.kind d := by
    show (t.object q).elim _ _ = _
    rw [h.old hd]
    rfl
  rw [FileSystem.isSymlink, FileSystem.isSymlink, hk]

theorem Grown.parent (h : Grown fs t) (hq : t.kindAt q = .dir) : t.kindAt q.dropLast = .dir := by
  rcases List.eq_nil_or_concat q with rfl | ⟨q', n, rfl⟩
  · exact hq
  · rw [List.concat_eq_append] at hq ⊢
    rw [List.dropLast_concat]
    obtain ⟨o, ho, -⟩ := Tree.kindAt_dir.mp hq
    exact h.closed ho

/-! ## The traversal -/

/-- `safe_traverse` of a missing path, by a process that may create files. -/
def passes (t : Tree) (path : Str) : Bool := (safeTraverse Tree.fs Tree.make t path true).isOk

variable {path : Str} {c : Component} {rest : List Component} {n : Str}

theorem openat_parent (hq : t.kindAt q = .dir) : t.fs.openat q (Utf8.encode (Component.asOsStr .parentDir)) = .ok q.dropLast := by
  have hdd : Utf8.encode (Component.asOsStr .parentDir) = dotdot := encode_dotdot
  rw [hdd]
  exact FileSystem.openat_dotdot.mpr ⟨hq, rfl⟩

theorem openat_normal (hq : t.kindAt q = .dir) (hn : IsEntryName (Utf8.encode n)) :
    t.fs.openat q (Utf8.encode n) =
      match t.object (q ++ [Utf8.encode n]) with
      | some _ => .ok (q ++ [Utf8.encode n])
      | none => .error .ENOENT := by
  have hk : t.fs.kind q = .dir := hq
  have hl : t.fs.lookup q (Utf8.encode n) = (t.object (q ++ [Utf8.encode n])).map fun _ => q ++ [Utf8.encode n] := by
    show (t.entry q _).map _ = _
    rw [Tree.entry, if_pos ⟨hq, hn⟩]
  rw [FileSystem.openat, if_neg (not_not_intro hk), if_neg hn.ne_dot, if_neg hn.ne_dotdot, hl]
  cases t.object (q ++ [Utf8.encode n]) <;> rfl

theorem openat_notdir {name : Bytes} (hq : t.kindAt q ≠ .dir) : t.fs.openat q name = .error .ENOTDIR :=
  if_pos hq

/-- A component that can be opened. -/
theorem traverse_open {next : List Bytes} (hnul : '\x00' ∉ c.asOsStr)
    (h : t.fs.openat q (Utf8.encode c.asOsStr) = .ok next) :
    (traverse Tree.fs Tree.make path true t q (c :: rest)).isOk = true ↔
      t.fs.isSymlink next = false ∧ (traverse Tree.fs Tree.make path true t next rest).isOk = true := by
  rw [traverse, if_neg hnul, h]
  dsimp only
  by_cases hs : t.fs.isSymlink next = true
  · rw [if_pos hs, hs]
    exact iff_of_false (fun h => by cases h) fun h => by cases h.1
  · rw [if_neg hs, Bool.not_eq_true _ |>.mp hs, and_iff_right rfl]

/-- A missing name is created: a directory, unless it ends the walk. -/
theorem makeComponent_missing {isLast : Bool} (hq : t.kindAt q = .dir) (hn : IsEntryName (Utf8.encode n))
    (hnew : t.object (q ++ [Utf8.encode n]) = none) :
    ∃ o : Object, (isLast = false → o.kind = .dir) ∧
      makeComponent Tree.make path isLast t q n = .ok (t.set q (Utf8.encode n) (some o)) := by
  have hentry : t.entry q (Utf8.encode n) = none := by rw [Tree.entry, if_pos ⟨hq, hn⟩, hnew]
  have hmake : ∀ kind (h : kind.targetLength < PATH_MAX), t.make q (Utf8.encode n) kind =
      .ok (t.set q (Utf8.encode n) (some { kind, stat := { mode := 0 }, target_length := h })) := by
    intro kind h
    rw [Tree.make, if_neg (not_not_intro hq), if_neg (by simp [hentry, hn]), dif_pos h]
  unfold makeComponent
  split
  · next hlast =>
    rw [hmake .file (by decide)]
    refine ⟨_, fun h => ?_, rfl⟩
    rw [h] at hlast
    cases hlast
  · rw [hmake .dir (by decide)]
    exact ⟨_, fun _ => rfl, rfl⟩

theorem traverse_missing (hq : t.kindAt q = .dir) (hn : IsEntryName (Utf8.encode n)) (hnul : '\x00' ∉ n)
    (hnew : t.object (q ++ [Utf8.encode n]) = none) :
    ∃ o : Object, (rest ≠ [] → o.kind = .dir) ∧
      traverse Tree.fs Tree.make path true t q (.normal n :: rest) =
        traverse Tree.fs Tree.make path true (t.set q (Utf8.encode n) (some o)) (q ++ [Utf8.encode n]) rest := by
  obtain ⟨o, hkind, hmake⟩ := @makeComponent_missing t q path n (rest = []) hq hn hnew
  refine ⟨o, fun hne => hkind (by simp [hne]), ?_⟩
  have hopen : t.fs.openat q (Utf8.encode (Component.asOsStr (.normal n))) = .error .ENOENT := by
    show t.fs.openat q (Utf8.encode n) = _
    rw [openat_normal hq hn, hnew]
  have hset : (t.set q (Utf8.encode n) (some o)).kindAt q = .dir := by
    have hne : q ≠ q ++ [Utf8.encode n] := fun he => absurd (congrArg List.length he) (by simp)
    rw [Tree.kindAt, Tree.object_set, if_neg hne]
    exact hq
  have hreopen : (t.set q (Utf8.encode n) (some o)).fs.openat q (Utf8.encode (Component.asOsStr (.normal n))) =
      .ok (q ++ [Utf8.encode n]) := by
    show (t.set q (Utf8.encode n) (some o)).fs.openat q (Utf8.encode n) = _
    rw [openat_normal hset hn, Tree.object_set, if_pos rfl]
  have hnul' : '\x00' ∉ Component.asOsStr (.normal n) := hnul
  rw [traverse, if_neg hnul', hopen]
  dsimp only
  rw [if_neg (by simp)]
  refine (congrArg (· >>= _) hmake).trans ?_
  simp only [bind, Except.bind, hreopen]

/-- Nothing is below what is no directory. -/
theorem traverse_notdir (hnul : '\x00' ∉ c.asOsStr) (hq : t.kindAt q ≠ .dir) :
    (traverse Tree.fs Tree.make path true t q (c :: rest)).isOk = false := by
  rw [traverse, if_neg hnul, openat_notdir hq]
  rfl

/-- **A walk passes where it is clear.** -/
theorem traverse_clear : ∀ {comps : List Component} {t : Tree} {q : List Bytes}, Grown fs t → (t.object q).isSome →
    (∀ d, fs.atLoc q = some d → fs.isSymlink d = false) → (∀ c ∈ comps, Path.Inner c ∧ '\x00' ∉ c.asOsStr) →
    ((traverse Tree.fs Tree.make path true t q comps).isOk = true ↔ ClearFrom fs q comps)
  | [], t, q => fun _ _ hlink _ => iff_of_true rfl (clearFrom_nil.mpr hlink)
  | c :: rest, t, q => by
    intro hg hsome hlink hcomps
    rw [List.forall_mem_cons] at hcomps
    obtain ⟨⟨hinner, hnul⟩, hrest⟩ := hcomps
    rw [clearFrom_cons]
    obtain ⟨o, ho⟩ := Option.isSome_iff_exists.mp hsome
    by_cases hq : t.kindAt q = .dir
    · rw [and_iff_right fun d hd => hg.kind_of_dir hq hd]
      cases c with
      | rootDir | curDir => exact hinner.elim
      | parentDir =>
        have hparent := hg.parent hq
        have hsym : t.fs.isSymlink q.dropLast = false := not_isSymlink_of_dir hparent
        obtain ⟨o', ho', -⟩ := Tree.kindAt_dir.mp hparent
        rw [traverse_open hnul (openat_parent hq), and_iff_right hsym]
        exact traverse_clear hg (by rw [ho']; rfl)
          (fun d hd => not_isSymlink_of_dir (hg.kind_of_dir hparent hd)) hrest
      | normal n =>
        have hn : IsEntryName (Utf8.encode n) := isEntryName_encode.mpr ⟨hinner, hnul⟩
        cases hobj : t.object (q ++ [Utf8.encode n]) with
        | some o' =>
          have hopen : t.fs.openat q (Utf8.encode (Component.asOsStr (.normal n))) = .ok (q ++ [Utf8.encode n]) := by
            show t.fs.openat q (Utf8.encode n) = _
            rw [openat_normal hq hn, hobj]
          rw [traverse_open hnul hopen]
          by_cases hsym : t.fs.isSymlink (q ++ [Utf8.encode n]) = false
          · rw [and_iff_right hsym]
            exact traverse_clear hg (by rw [hobj]; rfl) (fun d hd => hg.isSymlink_old hd ▸ hsym) hrest
          · have hkind : o'.kind ≠ .dir := by
              intro hk
              exact hsym (not_isSymlink_of_dir (Tree.kindAt_dir.mpr ⟨o', hobj, hk⟩))
            obtain ⟨d, hd, -⟩ := hg.exists_old hobj hkind
            refine iff_of_false (fun h => hsym h.1) fun hclear => hsym ?_
            rw [hg.isSymlink_old hd]
            exact (hclear [] rest rfl d hd).1
        | none =>
          have hmissing : ∀ d, fs.atLoc (q ++ [Utf8.encode n]) = some d → fs.isSymlink d = false := by
            intro d hd
            rw [hg.old hd] at hobj
            cases hobj
          obtain ⟨o', hkind, htraverse⟩ := @traverse_missing t q path rest n hq hn hnul hobj
          rw [htraverse]
          cases rest with
          | nil => exact iff_of_true rfl (clearFrom_nil.mpr hmissing)
          | cons c' rest =>
            have hgrown := hg.make (hkind (List.cons_ne_nil c' rest)) hq hobj
            exact traverse_clear hgrown (by rw [Tree.object_set, if_pos rfl]; rfl) hmissing hrest
    · rw [traverse_notdir hnul hq]
      refine iff_of_false Bool.false_ne_true fun h => ?_
      have hkind : o.kind ≠ .dir := fun hk => hq (Tree.kindAt_dir.mpr ⟨o, ho, hk⟩)
      obtain ⟨d, hd, hk⟩ := hg.exists_old ho hkind
      exact hkind (hk ▸ h.1 d hd)

theorem passes_iff (habs : Path.isAbsolute path = true) (hnul : '\x00' ∉ path) :
    passes fs.tree path = true ↔ Clear fs path := by
  rw [passes, safeTraverse, if_pos habs]
  refine traverse_clear Grown.tree rfl (fun d hd => ?_) fun c hc =>
    ⟨inner_pathComponents habs c hc, not_nul_pathComponents habs hnul c hc⟩
  cases hd
  exact not_isSymlink_of_dir fs.root_dir

/-! ## What exists -/

/-- The entry is where its location says, and is no symlink. -/
structure Reached (fs : FileSystem D) (d : D) : Prop where
  atLoc : fs.atLoc (fs.loc d) = some d
  notLink : fs.isSymlink d = false

variable {d e : D}

theorem Reached.root : Reached fs fs.root := ⟨by rw [fs.root_loc]; rfl, not_isSymlink_of_dir fs.root_dir⟩

theorem Reached.name {n : Bytes} (h : Reached fs d) (hl : fs.lookup d n = some e) (hs : fs.isSymlink e = false) :
    Reached fs e := by
  refine ⟨?_, hs⟩
  rw [fs.lookup_loc hl, atLoc_concat, h.atLoc]
  exact hl

theorem Reached.parent (h : Reached fs d) : Reached fs (fs.parent d) := by
  have hat := h.atLoc
  rcases List.eq_nil_or_concat (fs.loc d) with hloc | ⟨q, n, hloc⟩
  · rw [hloc] at hat
    cases hat
    rw [fs.root_parent]
    exact .root
  · rw [List.concat_eq_append] at hloc
    rw [hloc, atLoc_concat, Option.bind_eq_some_iff] at hat
    obtain ⟨d', hd', hl⟩ := hat
    have hq : q = fs.loc d' := by
      have hlocs := fs.lookup_loc hl
      rw [hloc] at hlocs
      exact (List.append_inj' hlocs rfl).1
    rw [fs.lookup_parent hl]
    exact ⟨hq ▸ hd', not_isSymlink_of_dir (fs.lookup_dir hl)⟩

theorem Reached.followIn {far : D → Bytes → Bool} {left : Nat} {cur e : D} {segs : List Segment} (h : Reached fs cur)
    (he : fs.followIn far left cur segs = .ok e) : Reached fs e :=
  @followIn_induction D fs far (Reached fs) .root (fun h => h.parent) (fun h _ hl hs => h.name hl hs) left cur e segs h he

theorem Reached.canonicalEntry {bytes : Bytes} (h : fs.canonicalEntry bytes = .ok d) : Reached fs d := by
  unfold FileSystem.canonicalEntry at h
  split at h
  · cases h
  · split at h
    · cases h
    · have hbase : fs.base fs.root bytes = fs.root := ite_self _
      have hfollow := (walkTo_ok.mp h).1
      rw [hbase] at hfollow
      exact Reached.root.followIn hfollow

theorem names_atLoc {q : List Bytes} (h : fs.atLoc q = some d) : ∀ n ∈ q, IsEntryName n := by
  induction q using List.reverseRecOn generalizing d with
  | nil => simp
  | append_singleton q n ih =>
    rw [atLoc_concat, Option.bind_eq_some_iff] at h
    obtain ⟨d', hd', hl⟩ := h
    intro m hm
    rcases List.mem_append.mp hm with hm | hm
    · exact ih hd' m hm
    · rw [List.mem_singleton.mp hm]
      exact fs.lookup_name hl

/-- Where something is below, there is a directory. -/
theorem dir_of_below {q q' : List Bytes} {n : Bytes} (h : fs.atLoc (q ++ n :: q') = some e) (hq : fs.atLoc q = some d) :
    fs.kind d = .dir := by
  have happend : fs.atLoc (q ++ n :: q') = (fs.atLoc q).bind fun d => (n :: q').foldlM fs.lookup d := by
    simp [FileSystem.atLoc, List.foldlM_append, bind]
  rw [happend, hq, Option.bind_some, List.foldlM_cons] at h
  obtain ⟨e', he', -⟩ := Option.bind_eq_some_iff.mp h
  exact fs.lookup_dir he'

theorem not_nul_canonicalPath (h : Reached fs d) : '\x00' ∉ fs.canonicalPath d := by
  intro hnul
  have hmem : (0 : UInt8) ∈ fs.pathOf d := Utf8.mem_of_mem_lossyN (d := '\x00') (by decide) hnul
  unfold FileSystem.pathOf at hmem
  split at hmem
  · exact absurd hmem (by decide)
  · obtain ⟨n, hn, hmem⟩ := List.mem_flatMap.mp hmem
    rcases List.mem_cons.mp hmem with hmem | hmem
    · exact absurd hmem (by decide)
    · exact (names_atLoc h.atLoc n hn).no_nul hmem

/-- **The canonical path of what exists is clear**, where its location is text. -/
theorem Reached.clear (h : Reached fs d) {names : List Str} (hloc : fs.loc d = names.map Utf8.encode) :
    Clear fs (fs.canonicalPath d) := by
  have hnames : ∀ n ∈ names, Path.IsName n := fun n hn => (isEntryName_encode.mp (names_atLoc h.atLoc _
    (hloc ▸ List.mem_map_of_mem hn))).1
  rw [canonicalPath_of_loc hloc, Clear, pathComponents_render hnames]
  intro walked rest hcomps d' hd'
  obtain ⟨names₁, names₂, rfl, rfl, rfl⟩ := List.map_eq_append_iff.mp hcomps
  rw [foldl_step_normal, List.nil_append] at hd'
  have hat := h.atLoc
  rw [hloc, List.map_append] at hat
  cases names₂ with
  | nil =>
    rw [List.map_nil, List.append_nil, hd'] at hat
    cases hat
    exact ⟨h.notLink, fun hne => absurd rfl hne⟩
  | cons n names₂ =>
    have hdir := dir_of_below hat hd'
    exact ⟨not_isSymlink_of_dir hdir, fun _ => hdir⟩

/-! ## The blocked paths of an accepted policy -/

/-- A blocked path that the isolation can mask: it exists, at a location that is
text or whose text is clear all the same; or it does not, and is itself clear. -/
def Maskable (fs : FileSystem D) (b : Str) : Prop :=
  (∃ d, fs.canonicalEntry (Utf8.encode b) = .ok d ∧
    ((∃ names : List Str, fs.loc d = names.map Utf8.encode) ∨ Clear fs (fs.canonicalPath d))) ∨
  (fs.canonicalEntry (Utf8.encode b) = .error .ENOENT ∧ Clear fs b)

theorem canonicalized_passes {b context p : Str} (habs : Path.isAbsolute b = true)
    (h : canonicalized fs b context = .ok p) : passes fs.tree p = true ↔ Maskable fs b := by
  unfold canonicalized FileSystem.realpath at h
  by_cases hnul : '\x00' ∈ b
  · rw [if_pos hnul] at h
    cases h
  · rw [if_neg hnul] at h
    unfold Maskable
    cases hopen : fs.canonicalEntry (Utf8.encode b) with
    | ok d =>
      rw [hopen] at h
      cases h
      have hreached := Reached.canonicalEntry hopen
      rw [passes_iff isAbsolute_canonicalPath (not_nul_canonicalPath hreached)]
      constructor
      · intro hclear
        exact .inl ⟨d, rfl, .inr hclear⟩
      · rintro (⟨d', hd', ⟨names, hnames⟩ | hclear⟩ | ⟨herr, -⟩)
        · cases hd'
          exact hreached.clear hnames
        · cases hd'
          exact hclear
        · cases herr
    | error e =>
      rw [hopen] at h
      have he : e = .ENOENT ∧ p = b := by
        cases e <;> cases h
        exact ⟨rfl, rfl⟩
      obtain ⟨rfl, rfl⟩ := he
      rw [passes_iff habs hnul]
      simp

theorem canonicalizeBlockedPaths_passes : ∀ {bs ps : List Str}, canonicalizeBlockedPaths fs bs = .ok ps →
    ((∀ p ∈ ps, passes fs.tree p = true) ↔ ∀ b ∈ bs, Maskable fs b)
  | [], ps, h => by
    cases h
    simp
  | b :: bs, ps, h => by
    unfold canonicalizeBlockedPaths at h
    split at h
    · cases h
    · next habs =>
      obtain ⟨p, hp, h⟩ := bind_ok.mp h
      obtain ⟨ps', hps, h⟩ := bind_ok.mp h
      cases h
      rw [List.forall_mem_cons, List.forall_mem_cons, canonicalizeBlockedPaths_passes hps,
        canonicalized_passes (by simpa using habs) hp]

/-- **Which blocked paths pass.** Those an accepted policy ends up with are all
walked to their end, exactly if each path it was given can be masked. -/
theorem blockedPaths_pass_iff {regexNew : Str → Option Regex} {policy policy' : SecureSudoersPolicy}
    (h : policy.validate fs regexNew = .ok policy') :
    (∀ p ∈ policy'.globalSettings.blockedPaths, passes fs.tree p = true) ↔
      ∀ b ∈ policy.globalSettings.blockedPaths, Maskable fs b := by
  unfold SecureSudoersPolicy.validate at h
  split at h
  · cases h
  · obtain ⟨ps, hps, h⟩ := bind_ok.mp h
    obtain ⟨tools, -, h⟩ := bind_ok.mp h
    cases h
    exact canonicalizeBlockedPaths_passes hps

/-- A host on which `/var/run` is a symlink to `/run`. -/
def runHost : Tree :=
  .ofList [(["run"], .directory), (["run", "pid"], .file 5), (["var"], .directory),
    (["var", "run"], { kind := .symlink (Utf8.encode "/run"), target_length := by decide })]

def blocking (paths : List Str) : SecureSudoersPolicy :=
  { globalSettings := { blockedPaths := paths }, tools := .empty }

/-- What is there passes, whatever its spelling, and so does what is missing below no symlink. -/
theorem blockedPaths_pass_run : ∃ policy', (blocking ["/var/run/pid", "/run/missing/lock"]).validate runHost.fs
    defaultRegexNew = .ok policy' ∧ ((∀ p ∈ policy'.globalSettings.blockedPaths, passes runHost.fs.tree p = true) ↔
      ∀ b ∈ (blocking ["/var/run/pid", "/run/missing/lock"]).globalSettings.blockedPaths, Maskable runHost.fs b) := by
  have hok : ((blocking ["/var/run/pid", "/run/missing/lock"]).validate runHost.fs defaultRegexNew).toOption.isSome =
      true := by decide +kernel
  exact ⟨_, eq_ok_get hok, blockedPaths_pass_iff (eq_ok_get hok)⟩

/-- A blocked path that is missing below a symlink makes every command fail. -/
theorem missing_refused : ¬∀ (t : Tree) (regexNew : Str → Option Regex) (policy policy' : SecureSudoersPolicy),
    policy.validate t.fs regexNew = .ok policy' →
    ∀ p ∈ policy'.globalSettings.blockedPaths, passes t.fs.tree p = true := by
  intro h
  have hpaths : ((blocking ["/var/run/missing"]).validate runHost.fs defaultRegexNew).toOption.map
      (·.globalSettings.blockedPaths) = some ["/var/run/missing".toList] := by decide +kernel
  have hrefused : passes runHost.fs.tree "/var/run/missing" = false := by decide +kernel
  cases hvalid : (blocking ["/var/run/missing"]).validate runHost.fs defaultRegexNew with
  | error e =>
    rw [hvalid] at hpaths
    cases hpaths
  | ok policy' =>
    rw [hvalid] at hpaths
    have hblocked : policy'.globalSettings.blockedPaths = ["/var/run/missing".toList] := Option.some.inj hpaths
    have hmem : "/var/run/missing".toList ∈ policy'.globalSettings.blockedPaths := by
      rw [hblocked]
      exact List.mem_singleton_self _
    have hpass := h runHost defaultRegexNew _ policy' hvalid _ hmem
    rw [hrefused] at hpass
    cases hpass

end SecureSudoers
