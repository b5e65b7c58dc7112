/-
The kernel's own resolution of a path, which `open` uses where the program hands
it a whole path, and the C library's, `realpath`: links are followed, up to
`MAXSYMLINKS` of them. On a path that exists the kernel reaches what the
reference resolution reaches (`Resolves.followIn`), unless a link to it ends in
a `/` and it is no directory.

`realpath` reads the canonical path of each component on its way, which
therefore has to be shorter than `PATH_MAX`.
-/
import SecureSudoers.Resolution
import SecureSudoers.Binding

namespace SecureSudoers

variable {D : Type}

/-- How many links the kernel follows in one path. -/
def MAXSYMLINKS : Nat := 40

/-- Does the path say that it names a directory? -/
def namesDirectory (path : Bytes) : Bool :=
  (path.splitOn slash).getLast? == some [] || (path.splitOn slash).getLast? == some dot

namespace FileSystem

variable (fs : FileSystem D)

/-- What a path that ends here and says that it names a directory has to name. -/
def ending (path : Bytes) (rest : List Segment) (d : D) : Except Errno D :=
  if rest = [] ∧ namesDirectory path ∧ fs.kind d ≠ .dir then .error .ENOTDIR else .ok d

/-- The walk along a path. `far` says which entries are too far down to be
looked up; `again` follows a link, if one may still be followed. -/
def followWith (far : D → Bytes → Bool) (again : Option (D → List Segment → Except Errno D)) :
    D → List Segment → Except Errno D
  | cur, [] => .ok cur
  | cur, .parent :: rest =>
    if fs.kind cur ≠ .dir then .error .ENOTDIR else followWith far again (fs.parent cur) rest
  | cur, .name n :: rest =>
    if far cur n then .error ENAMETOOLONG
    else if fs.kind cur ≠ .dir then .error .ENOTDIR
    else match fs.lookup cur n with
      | none => .error (if fs.nameTooLong cur n then ENAMETOOLONG else .ENOENT)
      | some e =>
        match fs.kind e with
        | .symlink t =>
          match again with
          | none => .error .ELOOP
          | some again => (again (fs.base cur t) (segments t ++ rest)).bind (fs.ending t rest)
        | _ => followWith far again e rest

/-- The walk when `left` more links may be followed. -/
def followIn (far : D → Bytes → Bool) : Nat → D → List Segment → Except Errno D
  | 0 => fs.followWith far none
  | left + 1 => fs.followWith far (some (followIn far left))

/-- The kernel's walk. -/
def follow : Nat → D → List Segment → Except Errno D := fs.followIn fun _ _ => false

/-- The walk of a whole path. -/
def walkTo (far : D → Bytes → Bool) (cwd : D) (path : Bytes) : Except Errno D :=
  (fs.followIn far MAXSYMLINKS (fs.base cwd path) (segments path)).bind (fs.ending path [])

/-- `open` with `O_PATH`, in the working directory `cwd`. -/
def openPath (cwd : D) (path : Bytes) : Except Errno D :=
  if path = [] then .error .ENOENT
  else if PATH_MAX ≤ path.length then .error ENAMETOOLONG
  else fs.walkTo (fun _ _ => false) cwd path

/-- Has the entry a canonical path that `readlink` refuses? -/
def far (d : D) (n : Bytes) : Bool := decide (PATH_MAX ≤ ((fs.loc d ++ [n]).flatMap (slash :: ·)).length)

/-- What `realpath` of an absolute path finds. -/
def canonicalEntry (path : Bytes) : Except Errno D :=
  if path = [] then .error .ENOENT
  else if fs.realpathBounded = true ∧ PATH_MAX ≤ path.length then .error ENAMETOOLONG
  else fs.walkTo fs.far fs.root path

/-- `std::fs::canonicalize` of an absolute path. -/
def realpath (path : Str) : Except Errno Str :=
  if '\x00' ∈ path then .error .nulInPath
  else (fs.canonicalEntry (Utf8.encode path)).map fs.canonicalPath

/-- The calls that identify a file, on a file system that does not change. -/
def descriptors (cwd : D) : Descriptors D where
  openPath path := fs.openPath cwd (Utf8.encode path)
  fstat d := .ok (fs.stat d)

end FileSystem

variable {fs : FileSystem D} {far : D → Bytes → Bool}

/-! ## Where a walk ends -/

theorem ending_ok {path : Bytes} {rest : List Segment} {d e : D} : fs.ending path rest d = .ok e ↔
    d = e ∧ (rest = [] → namesDirectory path = true → fs.kind d = .dir) := by
  unfold FileSystem.ending
  split
  · next h => simp [h]
  · next h => simp only [Except.ok.injEq]; tauto

theorem walkTo_ok {cwd e : D} {path : Bytes} : fs.walkTo far cwd path = .ok e ↔
    fs.followIn far MAXSYMLINKS (fs.base cwd path) (segments path) = .ok e ∧
      (namesDirectory path = true → fs.kind e = .dir) := by
  unfold FileSystem.walkTo
  rw [show ∀ x : Except Errno D, x.bind (fs.ending path []) = x >>= fs.ending path [] from fun _ => rfl, bind_ok]
  constructor
  · rintro ⟨d, hd, he⟩
    obtain ⟨rfl, hdir⟩ := ending_ok.mp he
    exact ⟨hd, hdir rfl⟩
  · exact fun ⟨he, hdir⟩ => ⟨e, he, ending_ok.mpr ⟨rfl, fun _ => hdir⟩⟩

theorem openPath_eq {cwd : D} {path : Bytes} : fs.openPath cwd path =
    if path = [] then .error .ENOENT
    else if PATH_MAX ≤ path.length then .error ENAMETOOLONG
    else
      match fs.follow MAXSYMLINKS (fs.base cwd path) (segments path) with
      | .error e => .error e
      | .ok d => if namesDirectory path ∧ fs.kind d ≠ .dir then .error .ENOTDIR else .ok d := by
  unfold FileSystem.openPath FileSystem.walkTo FileSystem.follow
  cases fs.followIn _ MAXSYMLINKS (fs.base cwd path) (segments path) with
  | error e => rfl
  | ok d => simp [Except.bind, FileSystem.ending]

section
variable {again : Option (D → List Segment → Except Errno D)} {cur d e : D} {n : Bytes} {rest : List Segment}

theorem followWith_entry (hl : fs.lookup cur n = some d) (hs : fs.isSymlink d = false) :
    fs.followWith far again cur (.name n :: rest) = .ok e ↔ far cur n = false ∧ fs.followWith far again d rest = .ok e := by
  rw [FileSystem.followWith, if_neg (not_not_intro (fs.lookup_dir hl)), hl]
  unfold FileSystem.isSymlink at hs
  cases far cur n with
  | true => simp
  | false =>
    cases hk : fs.kind d with
    | symlink t => simp [hk] at hs
    | dir | file => simp [hk]

theorem followWith_link {t : Bytes} (hl : fs.lookup cur n = some d) (hk : fs.kind d = .symlink t) :
    fs.followWith far again cur (.name n :: rest) = .ok e ↔ far cur n = false ∧ ∃ walk, again = some walk ∧
      walk (fs.base cur t) (segments t ++ rest) = .ok e ∧ (rest = [] → namesDirectory t = true → fs.kind e = .dir) := by
  rw [FileSystem.followWith, if_neg (not_not_intro (fs.lookup_dir hl)), hl]
  dsimp only
  rw [hk]
  cases far cur n with
  | true => simp
  | false =>
    cases again with
    | none => simp
    | some walk =>
      have hbind := @bind_ok _ _ _ (walk (fs.base cur t) (segments t ++ rest)) (fs.ending t rest) e
      simp only [Bool.false_eq_true, if_false, true_and, Option.some.injEq, exists_eq_left']
      refine hbind.trans ⟨fun ⟨d', hd', he⟩ => ?_, fun ⟨he, hend⟩ => ⟨e, he, ending_ok.mpr ⟨rfl, hend⟩⟩⟩
      obtain ⟨rfl, hend⟩ := ending_ok.mp he
      exact ⟨hd', hend⟩

theorem followWith_missing (hl : fs.lookup cur n = none) :
    fs.followWith far again cur (.name n :: rest) ≠ .ok e := by
  rw [FileSystem.followWith, hl]
  split
  · simp
  · split <;> simp

/-- What a walk finds under a name it goes on from, or follows. -/
theorem followWith_name (h : fs.followWith far again cur (.name n :: rest) = .ok e) :
    far cur n = false ∧ ∃ d, fs.lookup cur n = some d ∧
      ((fs.isSymlink d = false ∧ fs.followWith far again d rest = .ok e) ∨
        ∃ t walk, fs.kind d = .symlink t ∧ again = some walk ∧ walk (fs.base cur t) (segments t ++ rest) = .ok e) := by
  cases hl : fs.lookup cur n with
  | none => exact absurd h (followWith_missing hl)
  | some d =>
    cases hs : fs.isSymlink d with
    | false =>
      obtain ⟨hfar, hrest⟩ := (followWith_entry hl hs).mp h
      exact ⟨hfar, d, rfl, .inl ⟨hs, hrest⟩⟩
    | true =>
      obtain ⟨t, hk⟩ := isSymlink_iff.mp hs
      obtain ⟨hfar, walk, hw, he, -⟩ := (followWith_link hl hk).mp h
      exact ⟨hfar, d, rfl, .inr ⟨t, walk, hk, hw, he⟩⟩

theorem followWith_nil : fs.followWith far again cur [] = .ok cur := by rw [FileSystem.followWith]

theorem followWith_parent : fs.followWith far again cur (.parent :: rest) = .ok e ↔
    fs.kind cur = .dir ∧ fs.followWith far again (fs.parent cur) rest = .ok e := by
  rw [FileSystem.followWith]
  by_cases hk : fs.kind cur = .dir <;> simp [hk]

end

/-- **What holds at the start of a walk and is kept by its steps holds at its
end**: a rule for `followIn`. -/
theorem followIn_induction {P : D → Prop} (hroot : P fs.root) (hparent : ∀ {d}, P d → P (fs.parent d))
    (hname : ∀ {d e n}, P d → far d n = false → fs.lookup d n = some e → fs.isSymlink e = false → P e) :
    ∀ {left : Nat} {cur e : D} {segs : List Segment}, P cur → fs.followIn far left cur segs = .ok e → P e := by
  have hwith : ∀ {again : Option (D → List Segment → Except Errno D)},
      (∀ walk ∈ again, ∀ {cur segs e}, P cur → walk cur segs = .ok e → P e) →
      ∀ {segs : List Segment} {cur e : D}, P cur → fs.followWith far again cur segs = .ok e → P e := by
    intro again hagain segs
    induction segs with
    | nil =>
      intro cur e hcur h
      cases h
      exact hcur
    | cons seg segs ih =>
      intro cur e hcur h
      cases seg with
      | parent => exact ih (hparent hcur) (followWith_parent.mp h).2
      | name n =>
        obtain ⟨hfar, d, hl, ⟨hs, hrest⟩ | ⟨t, walk, -, hwalk, he⟩⟩ := followWith_name h
        · exact ih (hname hcur hfar hl hs) hrest
        · refine hagain walk hwalk ?_ he
          unfold FileSystem.base
          split
          · exact hroot
          · exact hcur
  intro left
  induction left with
  | zero => exact hwith (by simp)
  | succ left ih =>
    refine hwith fun walk hw => ?_
    cases hw
    exact ih

/-! ## The walk and the reference -/

/-- **A walk reaches what the reference reaches**, over at most as many links,
where nothing on the way is too far and what says that it is a directory is one. -/
theorem Resolves.followIn {cur e : D} {segs : List Segment} {targets : List Bytes} {visited : List D}
    (h : Resolves fs cur segs targets visited e)
    (hfar : ∀ {d v n}, fs.lookup d n = some v → far d n = true → targets = [] ∧ v ∉ visited)
    (hend : fs.kind e = .dir ∨ ∀ t ∈ targets, namesDirectory t = false) :
    ∀ {left : Nat}, targets.length ≤ left → fs.followIn far left cur segs = .ok e := by
  have step : ∀ left, ∃ again, fs.followIn far left = fs.followWith far again ∧
      ∀ left', left = left' + 1 → again = some (fs.followIn far left')
    | 0 => ⟨none, rfl, nofun⟩
    | left + 1 => ⟨_, rfl, fun _ he => Nat.succ.inj he ▸ rfl⟩
  induction h with
  | done =>
    intro left _
    obtain ⟨again, hf, -⟩ := step left
    rw [hf, FileSystem.followWith]
  | @parent cur e rest _ _ hk _ ih =>
    intro left hlen
    obtain ⟨again, hf, -⟩ := step left
    rw [hf, followWith_parent, ← hf]
    exact ⟨hk, ih (fun hl hd => (hfar hl hd).imp_right fun hv hm => hv (List.mem_cons_of_mem _ hm)) hend hlen⟩
  | @name cur d e n rest _ _ hl hs _ ih =>
    intro left hlen
    obtain ⟨again, hf, -⟩ := step left
    rw [hf, followWith_entry hl hs, ← hf]
    refine ⟨Bool.eq_false_iff.mpr fun hd => (hfar hl hd).2 List.mem_cons_self, ?_⟩
    exact ih (fun hl hd => (hfar hl hd).imp_right fun hv hm => hv (List.mem_cons_of_mem _ hm)) hend hlen
  | @link cur d e n t rest _ _ hl hk _ ih =>
    intro left hlen
    rw [List.length_cons] at hlen
    obtain ⟨left', rfl⟩ : ∃ left', left = left' + 1 := ⟨left - 1, by omega⟩
    obtain ⟨again, hf, hagain⟩ := step (left' + 1)
    have hnear : ∀ {d v n'}, fs.lookup d n' = some v → far d n' ≠ true := fun hl hd => nomatch (hfar hl hd).1
    have hrest := hend.imp_right fun h t' ht' => h t' (List.mem_cons_of_mem _ ht')
    rw [hf, followWith_link hl hk]
    refine ⟨Bool.eq_false_iff.mpr (hnear hl), _, hagain left' rfl, ?_, fun _ ht => ?_⟩
    · exact ih (fun hl hd => absurd hd (hnear hl)) hrest (by omega)
    · exact hend.resolve_right fun h => by simp [h t List.mem_cons_self] at ht

/-- The kernel finds nothing too far. -/
theorem Resolves.follow {cur e : D} {segs : List Segment} {targets : List Bytes} {visited : List D}
    (h : Resolves fs cur segs targets visited e) (hend : fs.kind e = .dir ∨ ∀ t ∈ targets, namesDirectory t = false)
    {left : Nat} (hleft : targets.length ≤ left) : fs.follow left cur segs = .ok e :=
  @Resolves.followIn D fs (fun _ _ => false) _ _ _ _ _ h (fun _ hd => Bool.noConfusion hd) hend left hleft

/-- One more component, that is no link. -/
theorem Resolves.snoc {cur d e : D} {segs : List Segment} {targets : List Bytes} {visited : List D} {n : Bytes}
    (h : Resolves fs cur segs targets visited d) (hl : fs.lookup d n = some e) (hs : fs.isSymlink e = false) :
    Resolves fs cur (segs ++ [.name n]) targets (visited ++ [e]) e := by
  induction h with
  | done => exact .name hl hs .done
  | parent hk _ ih => exact .parent hk (ih hl)
  | name hl' hs' _ ih => exact .name hl' hs' (ih hl)
  | link hl' hk' _ ih => exact .link hl' hk' (List.append_assoc .. ▸ ih hl)

/-- What a walk reaches, the reference reaches over as many links. -/
theorem followIn_resolves : ∀ {left : Nat} {cur e : D} {segs : List Segment}, fs.followIn far left cur segs = .ok e →
    ∃ targets visited, Resolves fs cur segs targets visited e ∧ targets.length ≤ left := by
  have hwith : ∀ {again : Option (D → List Segment → Except Errno D)} {left : Nat},
      (∀ walk ∈ again, ∀ {cur segs e}, walk cur segs = .ok e →
        ∃ targets visited, Resolves fs cur segs targets visited e ∧ targets.length + 1 ≤ left) →
      ∀ {segs : List Segment} {cur e : D}, fs.followWith far again cur segs = .ok e →
        ∃ targets visited, Resolves fs cur segs targets visited e ∧ targets.length ≤ left := by
    intro again left hagain segs
    induction segs with
    | nil =>
      intro cur e h
      cases h
      exact ⟨[], [], .done, Nat.zero_le _⟩
    | cons seg segs ih =>
      intro cur e h
      cases seg with
      | parent =>
        obtain ⟨hdir, hrest⟩ := followWith_parent.mp h
        obtain ⟨targets, visited, hr, hlen⟩ := ih hrest
        exact ⟨targets, _, .parent hdir hr, hlen⟩
      | name n =>
        obtain ⟨-, d, hl, ⟨hs, hrest⟩ | ⟨t, walk, hk, hwalk, he⟩⟩ := followWith_name h
        · obtain ⟨targets, visited, hr, hlen⟩ := ih hrest
          exact ⟨targets, _, .name hl hs hr, hlen⟩
        · obtain ⟨targets, visited, hr, hlen⟩ := hagain walk hwalk he
          exact ⟨t :: targets, visited, .link hl hk hr, hlen⟩
  intro left
  induction left with
  | zero => exact hwith (by simp)
  | succ left ih =>
    refine hwith fun walk hw => ?_
    cases hw
    intro cur segs e h
    obtain ⟨targets, visited, hr, hlen⟩ := ih h
    exact ⟨targets, visited, hr, Nat.succ_le_succ hlen⟩

/-- **A walk is one in every file system with the same entries and more.** -/
theorem followIn_mono {fs' : FileSystem D} (hroot : fs'.root = fs.root) (hparent : fs'.parent = fs.parent)
    (hdir : ∀ {d}, fs.kind d = .dir → fs'.kind d = .dir)
    (hlookup : ∀ {d e n}, fs.lookup d n = some e → fs'.lookup d n = some e ∧ fs'.kind e = fs.kind e) :
    ∀ {left : Nat} {cur e : D} {segs : List Segment}, fs.followIn far left cur segs = .ok e →
      fs'.followIn far left cur segs = .ok e := by
  have hwith : ∀ {again again' : Option (D → List Segment → Except Errno D)},
      (∀ walk ∈ again, ∃ walk' ∈ again', ∀ {cur segs e}, walk cur segs = .ok e → walk' cur segs = .ok e) →
      ∀ {segs : List Segment} {cur e : D}, fs.followWith far again cur segs = .ok e →
        fs'.followWith far again' cur segs = .ok e := by
    intro again again' hagain segs
    induction segs with
    | nil => exact fun h => h
    | cons seg segs ih =>
      intro cur e h
      cases seg with
      | parent =>
        obtain ⟨hk, hrest⟩ := followWith_parent.mp h
        exact followWith_parent.mpr ⟨hdir hk, hparent ▸ ih hrest⟩
      | name n =>
        obtain ⟨-, d, hl, -⟩ := followWith_name h
        obtain ⟨hl', hk'⟩ := hlookup hl
        cases hs : fs.isSymlink d with
        | false =>
          have hs' : fs'.isSymlink d = false := by
            rw [← hs, FileSystem.isSymlink, FileSystem.isSymlink, hk']
          obtain ⟨hfar, hrest⟩ := (followWith_entry hl hs).mp h
          exact (followWith_entry hl' hs').mpr ⟨hfar, ih hrest⟩
        | true =>
          obtain ⟨t, hk⟩ := isSymlink_iff.mp hs
          obtain ⟨hfar, walk, hwalk, he, hend⟩ := (followWith_link hl hk).mp h
          obtain ⟨walk', hwalk', hsame⟩ := hagain walk hwalk
          have hbase : fs'.base cur t = fs.base cur t := by rw [FileSystem.base, FileSystem.base, hroot]
          refine (followWith_link hl' (hk'.trans hk)).mpr ⟨hfar, walk', hwalk', ?_, fun hr ht => hdir (hend hr ht)⟩
          rw [hbase]
          exact hsame he
  intro left
  induction left with
  | zero => exact hwith (by simp)
  | succ left ih =>
    refine hwith fun walk hw => ⟨_, rfl, ?_⟩
    cases hw
    exact ih

/-- Nothing is found where there is no directory. -/
theorem dir_of_follow_cons {left : Nat} {cur e : D} {seg : Segment} {segs : List Segment}
    (h : fs.follow left cur (seg :: segs) = .ok e) : fs.kind cur = .dir := by
  have hwith : ∀ again, fs.followWith (fun _ _ => false) again cur (seg :: segs) = .ok e → fs.kind cur = .dir := by
    intro again h
    cases seg with
    | parent => exact (followWith_parent.mp h).1
    | name n =>
      obtain ⟨-, d, hl, -⟩ := followWith_name h
      exact fs.lookup_dir hl
  cases left with
  | zero => exact hwith _ h
  | succ left => exact hwith _ h

theorem followWith_append {again : Option (D → List Segment → Except Errno D)} {seg : Segment} {rest : List Segment}
    (left : Nat) (hleft : fs.followWith (fun _ _ => false) again = fs.follow left)
    (hagain : ∀ walk, again = some walk → ∀ cur segs, ∃ left', ∀ e, walk cur (segs ++ seg :: rest) = .ok e ↔
      ∃ d, walk cur segs = .ok d ∧ fs.follow left' d (seg :: rest) = .ok e) :
    ∀ (segs : List Segment) (cur : D), ∃ left', ∀ e,
      fs.followWith (fun _ _ => false) again cur (segs ++ seg :: rest) = .ok e ↔
        ∃ d, fs.followWith (fun _ _ => false) again cur segs = .ok d ∧ fs.follow left' d (seg :: rest) = .ok e
  | [], cur => ⟨left, fun e => by simp [hleft, FileSystem.followWith]⟩
  | .parent :: segs, cur => by
    obtain ⟨left', h⟩ := followWith_append left hleft hagain segs (fs.parent cur)
    refine ⟨left', fun e => ?_⟩
    simp only [List.cons_append, followWith_parent, h, and_assoc, exists_and_left]
  | .name n :: segs, cur => by
    cases hl : fs.lookup cur n with
    | none => exact ⟨0, fun e => iff_of_false (followWith_missing hl) fun ⟨_, hd, _⟩ => followWith_missing hl hd⟩
    | some d =>
      cases hs : fs.isSymlink d with
      | false =>
        obtain ⟨left', h⟩ := followWith_append left hleft hagain segs d
        exact ⟨left', fun e => by simp only [List.cons_append, followWith_entry hl hs, true_and, h]⟩
      | true =>
        obtain ⟨t, hk⟩ := isSymlink_iff.mp hs
        cases again with
        | none => exact ⟨0, fun e => by simp [followWith_link hl hk]⟩
        | some walk =>
          obtain ⟨left', h⟩ := hagain walk rfl (fs.base cur t) (segments t ++ segs)
          rw [List.append_assoc] at h
          refine ⟨left', fun e => ?_⟩
          simp only [List.cons_append, followWith_link hl hk, true_and, Option.some.injEq, exists_eq_left', h,
            List.append_eq_nil_iff, reduceCtorEq, and_false, false_imp_iff, and_true]
          refine exists_congr fun d' => ⟨fun ⟨hd', he⟩ => ?_, fun ⟨⟨hd', _⟩, he⟩ => ⟨hd', he⟩⟩
          exact ⟨⟨hd', fun _ _ => dir_of_follow_cons he⟩, he⟩

/-- A walk goes on where its first part ends. -/
theorem follow_append {seg : Segment} {rest : List Segment} : ∀ (left : Nat) (cur : D) (segs : List Segment),
    ∃ left', ∀ e, fs.follow left cur (segs ++ seg :: rest) = .ok e ↔
      ∃ d, fs.follow left cur segs = .ok d ∧ fs.follow left' d (seg :: rest) = .ok e
  | 0, cur, segs => followWith_append 0 rfl (fun _ h => by cases h) segs cur
  | left + 1, cur, segs =>
    followWith_append (left + 1) rfl (fun walk h => by cases h; exact follow_append left) segs cur

/-- The kernel finds the entry of a directory that is reached. -/
theorem Resolves.follow_entry {cur d e : D} {segs : List Segment} {targets : List Bytes} {visited : List D} {n : Bytes}
    (h : Resolves fs cur segs targets visited d) (hl : fs.lookup d n = some e) (hs : fs.isSymlink e = false) {left : Nat}
    (hleft : targets.length ≤ left) : fs.follow left cur (segs ++ [.name n]) = .ok e := by
  obtain ⟨left', happend⟩ := @follow_append D fs (.name n) [] left cur segs
  refine (happend e).mpr ⟨d, h.follow (.inl (fs.lookup_dir hl)) hleft, ?_⟩
  have hwith : ∀ again, fs.followWith (fun _ _ => false) again d [.name n] = .ok e := fun again =>
    (followWith_entry hl hs).mpr ⟨rfl, followWith_nil⟩
  cases left' with
  | zero => exact hwith none
  | succ left' => exact hwith (some (fs.followIn (fun _ _ => false) left'))

/-! ## The path of an open file -/

theorem openPath_follow {cwd fd : D} {path : Str} (habs : Path.isAbsolute path = true)
    (hopen : fs.openPath cwd (Utf8.encode path) = .ok fd) :
    fs.follow MAXSYMLINKS fs.root (segments (Utf8.encode path)) = .ok fd := by
  have hbase : fs.base cwd (Utf8.encode path) = fs.root := if_pos (head?_encode_slash.mpr habs)
  unfold FileSystem.openPath at hopen
  split at hopen
  · cases hopen
  · split at hopen
    · cases hopen
    · have hfollow := (walkTo_ok.mp hopen).1
      rwa [hbase] at hfollow

/-- What is opened is what the reference resolution reaches. -/
theorem Resolves.opened {cwd fd d : D} {path : Str} {targets : List Bytes} {visited : List D}
    (h : Resolves fs fs.root (segments (Utf8.encode path)) targets visited d) (habs : Path.isAbsolute path = true)
    (hopen : fs.openPath cwd (Utf8.encode path) = .ok fd) : fd = d := by
  obtain ⟨_, _, hr, -⟩ := followIn_resolves (openPath_follow habs hopen)
  exact (h.unique hr).2.2

end SecureSudoers
