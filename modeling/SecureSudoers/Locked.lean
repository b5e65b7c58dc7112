/-
What an installation has locked, and by which paths it is found again.

`chattr_op` is given the paths that are managed whatever the tools are and those
of the tools' entry points. The entry points are links of the managed binary:
while its path still names it, every locked inode is one of the paths in the
first group, and these are known without the policy (`BinaryStays.named`).
-/
import SecureSudoers.StoredInstall

namespace SecureSudoers

variable {k : Refusals} {ctx : LinkContext} {t t' : Tree} {tool : Str} {tools : List Str} {paths : InstallPaths}
  {q : List Bytes}

/-! ## The targets -/

/-- The paths that are managed whatever the tools are. -/
def InstallPaths.fixed (paths : InstallPaths) : List Str :=
  [paths.binary, paths.utilsBinary, paths.policyPath, paths.publicKeyPath, paths.policyPath ++ ".sig",
    paths.sudoersPath]

section Reps

variable {α : Type} [BEq α] {a x y : α} {xs acc : List α}

theorem eraseReps_loop :
    List.eraseRepsBy.loop (· == ·) x xs acc = acc.reverse ++ List.eraseRepsBy.loop (· == ·) x xs [] := by
  induction xs generalizing x acc with
  | nil => simp [List.eraseRepsBy.loop]
  | cons y ys ih =>
    unfold List.eraseRepsBy.loop
    split
    · exact ih
    · rw [ih, @ih y [x]]
      simp

theorem eraseReps_cons [LawfulBEq α] :
    (x :: y :: xs).eraseReps = if x == y then (y :: xs).eraseReps else x :: (y :: xs).eraseReps := by
  rw [List.eraseReps, List.eraseRepsBy, List.eraseRepsBy.loop]
  split
  · next heq =>
    rw [if_pos heq, eq_of_beq heq]
    rfl
  · next hne =>
    rw [if_neg (by simp [hne]), eraseReps_loop]
    rfl

theorem mem_eraseReps [LawfulBEq α] : a ∈ xs.eraseReps ↔ a ∈ xs := by
  induction xs with
  | nil => simp [List.eraseReps, List.eraseRepsBy]
  | cons x xs ih =>
    cases xs with
    | nil => simp [List.eraseReps, List.eraseRepsBy, List.eraseRepsBy.loop]
    | cons y ys =>
      rw [eraseReps_cons]
      split
      · next heq =>
        rw [ih, eq_of_beq heq]
        simp
      · rw [List.mem_cons, ih]
        simp only [List.mem_cons]

/-- Of an ordered list it leaves each element once. -/
theorem nodup_eraseReps [LawfulBEq α] {r : α → α → Prop} (hanti : ∀ {a b}, r a b → r b a → a = b) (h : xs.Pairwise r) :
    xs.eraseReps.Nodup := by
  induction xs with
  | nil => simp [List.eraseReps, List.eraseRepsBy]
  | cons x xs ih =>
    obtain ⟨hx, hxs⟩ := List.pairwise_cons.mp h
    cases xs with
    | nil => simp [List.eraseReps, List.eraseRepsBy, List.eraseRepsBy.loop]
    | cons y ys =>
      rw [eraseReps_cons]
      split
      · exact ih hxs
      · next hne =>
        refine List.nodup_cons.mpr ⟨fun hmem => ?_, ih hxs⟩
        have hxy : x ≠ y := fun he => hne (beq_iff_eq.mpr he)
        rcases List.mem_cons.mp (mem_eraseReps.mp hmem) with rfl | hmem
        · exact hxy rfl
        · exact hxy (hanti (hx y List.mem_cons_self) ((List.pairwise_cons.mp hxs).1 x hmem))

end Reps

theorem managedTargets_nodup : (managedTargets paths tools).Nodup :=
  nodup_eraseReps (fun hab hba => Utf8.encode_inj.mp (List.le_antisymm (strLe_iff.mp hab) (strLe_iff.mp hba)))
    (sorted_mergeSort _)

theorem mem_managedTargets {path : Str} : path ∈ managedTargets paths tools ↔
    path ∈ paths.fixed ∨ ∃ tool ∈ tools, path = Path.push paths.entryPointDir tool := by
  rw [managedTargets, mem_eraseReps, List.mem_mergeSort, List.mem_append, List.mem_map]
  simp [InstallPaths.fixed, eq_comm]

/-- Each of the errors is that of one of the paths. -/
theorem chattrEach_errors {k : FileRefusals} {setImmutable : Bool} {targets : List Str} {st : Storage}
    (h : targets.Nodup) :
    ∃ error : Str → Option Str, (Storage.chattrEach k setImmutable targets st).1 = targets.filterMap error := by
  induction targets generalizing st with
  | nil => exact ⟨fun _ => none, rfl⟩
  | cons path targets ih =>
    obtain ⟨hpath, hrest⟩ := List.nodup_cons.mp h
    -- what is said of `path` is not said of the other targets
    have hextend : ∀ (st' : Storage) (message : Option Str), ∃ error : Str → Option Str, error path = message ∧
        (Storage.chattrEach k setImmutable targets st').1 = targets.filterMap error := by
      intro st' message
      obtain ⟨error, herror⟩ := @ih st' hrest
      refine ⟨fun p => if p = path then message else error p, if_pos rfl, herror.trans ?_⟩
      refine List.filterMap_congr fun p hp => (if_neg fun he => ?_).symm
      exact hpath (he ▸ hp)
    unfold Storage.chattrEach
    split
    · next st' _ =>
      obtain ⟨error, hnone, herror⟩ := hextend st' none
      exact ⟨error, by rw [List.filterMap_cons_none hnone, herror]⟩
    · next e _ =>
      split
      · obtain ⟨error, hnone, herror⟩ := hextend st none
        exact ⟨error, by rw [List.filterMap_cons_none hnone, herror]⟩
      · obtain ⟨error, hsome, herror⟩ := hextend st (some e.message)
        exact ⟨error, by rw [List.filterMap_cons_some hsome, ← herror]⟩

/-- **The installation on inodes ends as the one on names does**, where writing the
drop-in and `chattr_op` end as they end there. -/
theorem installWithPaths_ends {m : Machine} {st : Storage} : ∃ write chattr, (st.installWithPaths m paths).1 =
    (installWithPaths { m.host st with writeSudoersFileTo := write, chattr } st.tree paths).2 := by
  unfold Storage.installWithPaths Storage.installWithPathsAndPubkey installWithPaths installWithPathsAndPubkey
  have hload : ∀ write chattr, loadPolicyWithVerifiedSignature
      { m.host st with writeSudoersFileTo := write, chattr } st.tree paths.policyPath paths.publicKeyPath =
        loadPolicyWithVerifiedSignature (m.host st) st.tree paths.policyPath paths.publicKeyPath := fun _ _ => rfl
  simp only [hload]
  cases loadPolicyWithVerifiedSignature (m.host st) st.tree paths.policyPath paths.publicKeyPath with
  | error e => exact ⟨fun _ _ => .ok (), fun _ => none, rfl⟩
  | ok policy =>
    dsimp only [Machine.host]
    generalize installToolLinksTo (st.guarded m.refusals) m.euid st.tree (policy.tools.keys.mergeSort strLe)
      paths.binary paths.entryPointDir = links
    split
    · next e _ _ => exact ⟨fun _ _ => .error e, fun _ => none, rfl⟩
    · next st' _ =>
      rw [Storage.chattrOp_plus]
      obtain ⟨error, herror⟩ := @chattrEach_errors m.files true _ st' (@managedTargets_nodup links.successful paths)
      exact ⟨fun _ _ => .ok (), error, congrArg (installErrors links.errors) herror⟩

/-- An installation that writes its drop-in goes on to lock its targets. -/
theorem installWithPaths_locking {m : Machine} {st st' : Storage} {policy : SecureSudoersPolicy} {links : Links}
    (hload : loadPolicyWithVerifiedSignature (m.host st) st.tree paths.policyPath paths.publicKeyPath = .ok policy)
    (hlinks : installToolLinksTo (st.guarded m.refusals) m.euid st.tree (policy.tools.keys.mergeSort strLe) paths.binary
      paths.entryPointDir = links)
    (hwrite : (st.withTree links.tree).writeSudoersFileTo m links.successful paths.sudoersPath paths.entryPointDir =
      (.ok (), st')) : (st.installWithPaths m paths).2 =
        (Storage.chattrEach m.files true (managedTargets paths links.successful) st').2 := by
  unfold Storage.installWithPaths Storage.installWithPathsAndPubkey
  rw [hload]
  dsimp only
  rw [hlinks]
  simp only [hwrite, Storage.chattrOp_plus]

/-- What an installation has set the flag of, a path of its targets names. -/
theorem installWithPaths_locks {m : Machine} {st st' : Storage} {r : Except Error Unit} {inode : ExecutableIdentity}
    (h : st.installWithPaths m paths = (r, st')) (hnot : st.immutable inode = false)
    (himm : st'.immutable inode = true) : ∃ policy,
      loadPolicyWithVerifiedSignature (m.host st) st.tree paths.policyPath paths.publicKeyPath = .ok policy ∧
        let links := installToolLinksTo (st.guarded m.refusals) m.euid st.tree (policy.tools.keys.mergeSort strLe)
          paths.binary paths.entryPointDir
        (∃ dir n, links.tree.place paths.sudoersPath = some (dir ++ [n]) ∧ links.tree.kindAt dir = .dir ∧
          Tree.Replaces (dir ++ [n]) links.tree st'.tree) ∧
        ∃ path ∈ managedTargets paths links.successful, ∃ dir name o, Names st'.tree path dir name o ∧
          o.stat.identity = inode := by
  unfold Storage.installWithPaths Storage.installWithPathsAndPubkey at h
  split at h
  · obtain ⟨-, rfl⟩ := Prod.mk.inj h
    rw [hnot] at himm
    cases himm
  · next policy hload =>
    refine ⟨policy, hload, ?_⟩
    extract_lets toolNames links at h
    have hflags : ((st.withTree links.tree).writeSudoersFileTo m links.successful paths.sudoersPath
        paths.entryPointDir).2.flags = st.flags := Storage.writeSudoersFileTo_flags
    have hkept : ∀ {st₁ : Storage}, st₁.flags = st.flags → st₁.immutable inode = false := fun he => by
      rw [Storage.immutable, he]
      exact hnot
    split at h
    · next st₁ hwrite =>
      obtain ⟨-, rfl⟩ := Prod.mk.inj h
      rw [hwrite] at hflags
      rw [hkept hflags] at himm
      cases himm
    · next st₁ hwrite =>
      rw [hwrite] at hflags
      have hnot₁ := hkept hflags
      rw [Storage.chattrOp_plus] at h
      obtain ⟨-, rfl⟩ := Prod.mk.inj h
      obtain ⟨path, hpath, hopen⟩ := Storage.chattrEach_locks himm hnot₁
      obtain ⟨dir, n, hplace, hdir, hreplaces⟩ := Storage.writeSudoersFileTo_ok hwrite
      refine ⟨⟨dir, n, hplace, hdir, ?_⟩, path, hpath, ?_⟩
      · rw [Storage.chattrEach_same.1]
        exact hreplaces
      · rw [Storage.chattrEach_same.1]
        exact openVerifiedTarget_ok hopen

/-! ## What the links change -/

/-- One tool changes what is under its name and its backup's. -/
theorem linkTool_touches {r : Except Str Unit} (h : linkTool k ctx t tool = (t', r)) :
    t' = t ∨ isValidToolName tool = true ∧ '\x00' ∉ tool ∧ Touches ctx tool t t' := by
  unfold linkTool at h
  extract_lets linkPath at h
  split at h
  · exact .inl (Prod.mk.inj h).1.symm
  · next hvalid =>
    split at h
    · exact .inl (Prod.mk.inj h).1.symm
    · next hnul =>
      have hvalid : isValidToolName tool = true := by simpa using hvalid
      split at h
      · exact .inl (Prod.mk.inj h).1.symm
      · next t₁ hclear =>
        obtain ⟨rfl, -⟩ := Prod.mk.inj h
        exact .inr ⟨hvalid, hnul, (clearEntry_ok hvalid hnul hclear).1⟩
      · next t₁ hclear =>
        have ht := (clearEntry_ok hvalid hnul hclear).1
        refine .inr ⟨hvalid, hnul, ?_⟩
        split at h
        · next t₂ hlink =>
          obtain ⟨rfl, -⟩ := Prod.mk.inj h
          exact ht.trans (linkat_entryOf (isEntryName_tool hvalid hnul).1 hlink).1
        · split at h
          · obtain ⟨rfl, -⟩ := Prod.mk.inj h
            exact ht
          · obtain ⟨rfl, -⟩ := Prod.mk.inj h
            exact ht

/-- The loop changes nothing but what is under the names and the backups of its tools. -/
theorem linkTools_touches : ∀ {tools : List Str} {t : Tree},
    (∀ tool ∈ tools, isValidToolName tool = true → '\x00' ∉ tool →
      q ≠ ctx.entryOf tool ∧ q ≠ ctx.entryOf (backupName tool)) →
    (linkTools k ctx t tools).tree.object q = t.object q
  | [], _ => fun _ => rfl
  | tool :: rest, t => by
    intro hq
    rw [List.forall_mem_cons] at hq
    obtain ⟨t', r, hstep⟩ : ∃ t' r, linkTool k ctx t tool = (t', r) := ⟨_, _, rfl⟩
    have htree : (linkTools k ctx t (tool :: rest)).tree = (linkTools k ctx t' rest).tree := by
      rw [linkTools, hstep]
      cases r <;> rfl
    rw [htree, linkTools_touches hq.2]
    rcases linkTool_touches hstep with rfl | ⟨hvalid, hnul, ht⟩
    · rfl
    · exact ht.only (hq.1 hvalid hnul).1 (hq.1 hvalid hnul).2

theorem Tree.AddsFiles.ways (h : t.AddsFiles t') : t'.KeepsWays t := by
  intro q o ho hk
  have hkind : t'.kindAt q ≠ .file := by
    rw [Tree.kindAt, ho]
    exact hk
  rw [← h.only hkind, ho]

/-- The managed binary is where its path says. -/
theorem prepareLinks_place {euid : Nat} {binary entryPointDir : Str}
    (h : prepareLinks k euid t binary entryPointDir = .ok ctx) : t.kindAt ctx.binaryDir = .dir ∧
      t.place binary = some ctx.managed ∧ ∃ name, Path.fileName binary = some name ∧ '\x00' ∉ name ∧
        ctx.binaryName = Utf8.encode name := by
  unfold prepareLinks at h
  split at h
  · cases h
  · next secureBinaryParent hparent =>
    split at h
    · cases h
    · next name hname =>
      split at h
      · cases h
      · next hnul =>
        split at h
        · cases h
        · split at h
          · cases h
          · split at h
            · cases h
            · cases h
              obtain ⟨hdir, parent, hpath, hcheck⟩ := secureParentDirectory_ok hparent
              exact ⟨hdir, place_some.mpr ⟨parent, name, _, hpath, hname, hcheck, rfl⟩, name, hname, hnul, rfl⟩

/-- Where a tool's entry point or its backup is. -/
theorem place_entryOf {euid : Nat} (hctx : prepareLinks k euid t paths.binary paths.entryPointDir = .ok ctx)
    {name : Str} (hname : Path.IsName name) : t.place (Path.push paths.entryPointDir name) = some (ctx.entryOf name) := by
  obtain ⟨-, -, ⟨p, hcheck⟩, -⟩ := prepareLinks_ok hctx
  exact place_push hname hcheck

/-- The path of a tool names what is under its name in the entry-point directory. -/
theorem names_entry {euid : Nat} (hctx : prepareLinks k euid t paths.binary paths.entryPointDir = .ok ctx)
    (hways : t'.KeepsWays t) (hvalid : isValidToolName tool = true) {dir : List Bytes} {name : Str} {o : Object}
    (hnames : Names t' (Path.push paths.entryPointDir tool) dir name o) : dir = ctx.entryDir ∧ name = tool := by
  have hplace := place_keeps hways hnames.place (Tree.entry_some.mp hnames.entry).1
  rw [place_entryOf hctx (isName_tool hvalid)] at hplace
  obtain ⟨hdir, hname⟩ := List.append_inj' (Option.some.inj hplace) rfl
  exact ⟨hdir.symm, (Utf8.encode_inj.mp (List.cons.inj hname).1).symm⟩

/-- A path is absolute if that of its directory is. -/
theorem isAbsolute_of_parent {path parent : Str} (h : Path.parent path = some parent)
    (habs : Path.isAbsolute parent = true) : Path.isAbsolute path = true := by
  by_contra hrel
  have hrel : Path.isAbsolute path = false := by simpa using hrel
  have hpush : ∀ {cs : List Component} {p : Str}, (∀ c ∈ cs, Path.isAbsolute c.asOsStr = false) →
      Path.isAbsolute p = false → Path.isAbsolute (cs.foldl (fun p c => Path.push p c.asOsStr) p) = false := by
    intro cs
    induction cs with
    | nil => exact fun _ hp => hp
    | cons c cs ih =>
      intro p hc hp
      rw [List.forall_mem_cons] at hc
      rw [List.foldl_cons]
      refine ih hc.2 ?_
      cases p with
      | nil => simp [Path.push, hc.1]
      | cons x p =>
        simp only [Path.push, hc.1, Bool.false_eq_true, if_false]
        split <;> simpa [Path.isAbsolute] using hp
  have hcs : ∀ c ∈ Path.components path, Path.isAbsolute c.asOsStr = false := by
    have hbody : ∀ c ∈ Path.body path, Path.isAbsolute c.asOsStr = false := fun c hc =>
      Path.not_isAbsolute_asOsStr (Path.inner_of_mem_body hc)
    rw [Path.components, if_neg (by simp [hrel])]
    split
    · exact List.forall_mem_cons.mpr ⟨rfl, hbody⟩
    · exact hbody
  unfold Path.parent at h
  split at h
  · cases h
  · cases h
  · cases h
    rw [Path.collect, hpush (fun c hc => hcs c (List.dropLast_subset _ hc)) rfl] at habs
    cases habs

theorem Names.of_place {path : Str} {dir : List Bytes} {name : Str} {o : Object}
    (hname : Path.fileName path = some name) (hnul : '\x00' ∉ name) (hplace : t.place path = some (dir ++ [Utf8.encode name]))
    (ho : t.entry dir (Utf8.encode name) = some o) (hlink : ∀ target, o.kind ≠ .symlink target) :
    Names t path dir name o := by
  obtain ⟨parent, name', ⟨p, fd⟩, hparent, -, hcheck, hq⟩ := place_some.mp hplace
  obtain ⟨rfl, -⟩ := List.append_inj' hq rfl
  exact ⟨isAbsolute_of_parent hparent (checkPath_accepts.mp hcheck).1, ⟨parent, p, hparent, hcheck⟩, hname, hnul, ho,
    hlink _⟩

/-! ## The managed binary in its place -/

def Kind.isLink : Kind → Bool
  | .symlink _ => true
  | .dir | .file => false

/-- The tree without the links at some places. -/
def Tree.withoutLinks (t : Tree) (qs : List (List Bytes)) : Tree where
  object q := (t.object q).filter fun o => !(o.kind.isLink && decide (q ∈ qs))
  root_dir := by
    obtain ⟨o, ho, hk⟩ := t.root_dir
    exact ⟨o, by rw [ho, Option.filter_some, hk]; rfl, hk⟩

theorem withoutLinks_object {qs : List (List Bytes)} {o : Object} : (t.withoutLinks qs).object q = some o ↔
    t.object q = some o ∧ (o.kind.isLink = true → q ∉ qs) := by
  rw [Tree.withoutLinks]
  dsimp only
  rw [Option.filter_eq_some_iff, and_congr_right_iff]
  intro _
  cases o.kind.isLink <;> simp

/-- The places in which an installation may put a file, or take a link away. -/
def installPlaces (t : Tree) (paths : InstallPaths) (tools : List Str) : List (List Bytes) :=
  (paths.sudoersPath :: tools.flatMap fun tool => [Path.push paths.entryPointDir tool,
    Path.push paths.entryPointDir (backupName tool)]).filterMap t.place

/-- The installation of these tools leaves the managed binary where its path
finds it: it puts no other file there, and takes no link away on the way. -/
structure BinaryStays (t : Tree) (paths : InstallPaths) (tools : List Str) : Prop where
  dropIn {q : List Bytes} : t.place paths.binary = some q → t.place paths.sudoersPath ≠ some q
  backup {q : List Bytes} {tool : Str} : t.place paths.binary = some q → tool ∈ tools →
    t.place (Path.push paths.entryPointDir (backupName tool)) ≠ some q
  way : (t.withoutLinks (installPlaces t paths tools)).place paths.binary = t.place paths.binary

namespace BinaryStays

variable {euid : Nat}

theorem ne_backup (h : BinaryStays t paths tools)
    (hctx : prepareLinks k euid t paths.binary paths.entryPointDir = .ok ctx) :
    ∀ tool ∈ tools, ctx.managed ≠ ctx.entryOf (backupName tool) := by
  intro tool htool he
  obtain ⟨-, hplace, name, hname, -, hbinary⟩ := prepareLinks_place hctx
  have hlast := (List.append_inj' he rfl).2
  rw [hbinary, List.cons.injEq, Utf8.encode_inj] at hlast
  have hisName : Path.IsName (backupName tool) := hlast.1 ▸ Path.isName_of_fileName hname
  refine h.backup hplace htool ?_
  rw [he]
  exact place_entryOf hctx hisName

/-- The way to the managed binary goes over nothing that the links change. -/
theorem ways (hctx : prepareLinks k euid t paths.binary paths.entryPointDir = .ok ctx) :
    (t.withoutLinks (installPlaces t paths tools)).KeepsWays (linkTools k ctx t (tools.mergeSort strLe)).tree := by
  intro q o ho hk
  obtain ⟨hobj, hlink⟩ := withoutLinks_object.mp ho
  cases hkind : o.kind with
  | file => exact absurd hkind hk
  | dir => exact linkTools_linked.2.1 hobj hkind
  | symlink target =>
    have hnot : q ∉ installPlaces t paths tools := hlink (by rw [hkind]; rfl)
    rw [linkTools_touches, hobj]
    intro tool htool hvalid hnul
    have htool := List.mem_mergeSort.mp htool
    have hplaces : ∀ {name : Str}, Path.IsName name → name = tool ∨ name = backupName tool →
        q ≠ ctx.entryOf name := by
      rintro name hname hor rfl
      refine hnot (List.mem_filterMap.mpr ⟨Path.push paths.entryPointDir name, ?_, place_entryOf hctx hname⟩)
      refine List.mem_cons_of_mem _ (List.mem_flatMap.mpr ⟨tool, htool, ?_⟩)
      rcases hor with rfl | rfl <;> simp
    exact ⟨hplaces (isName_tool hvalid) (.inl rfl),
      hplaces (isEntryName_encode.mp (isEntryName_tool hvalid hnul).2).1 (.inr rfl)⟩

/-- **The managed binary names what the entry points are.** What the path of a
tool that was linked names, once the drop-in is written, one of the paths names
that are managed whatever the tools are. -/
theorem named (h : BinaryStays t paths tools) (hnodup : tools.Nodup)
    (hctx : prepareLinks k euid t paths.binary paths.entryPointDir = .ok ctx)
    (htool : tool ∈ (linkTools k ctx t (tools.mergeSort strLe)).successful) {dir d : List Bytes} {n : Bytes}
    (hplace : (linkTools k ctx t (tools.mergeSort strLe)).tree.place paths.sudoersPath = some (dir ++ [n]))
    (hdir : (linkTools k ctx t (tools.mergeSort strLe)).tree.kindAt dir = .dir)
    (hreplaces : Tree.Replaces (dir ++ [n]) (linkTools k ctx t (tools.mergeSort strLe)).tree t') {name : Str}
    {o : Object} (hnames : Names t' (Path.push paths.entryPointDir tool) d name o) :
    ∃ path ∈ paths.fixed, ∃ d name o', Names t' path d name o' ∧ o'.stat.identity = o.stat.identity := by
  set links := linkTools k ctx t (tools.mergeSort strLe) with hlinks
  obtain ⟨hbinaryDir, hbinary, binaryName, hbinaryFile, hbinaryNul, hbinaryName⟩ := prepareLinks_place hctx
  obtain ⟨hman, -, -, -⟩ := prepareLinks_ok hctx
  have hbackup : ∀ tool ∈ tools.mergeSort strLe, ctx.managed ≠ ctx.entryOf (backupName tool) :=
    fun tool htool => h.ne_backup hctx tool (List.mem_mergeSort.mp htool)
  obtain ⟨hkeep, -, hlinked⟩ := @linkTools_linked k ctx (tools.mergeSort strLe) t
  obtain ⟨-, hentry⟩ := hlinked (apart_sorted hnodup) hbackup hman tool htool
  obtain ⟨om, hom, homFile, homId⟩ : ctx.IsLink links.tree ctx.managed := hkeep hbackup hman
  obtain ⟨oe, hoe, hoeFile, hoeId⟩ : ctx.IsLink links.tree (ctx.entryOf tool) := hentry
  obtain ⟨hvalid, hnul⟩ := linkTools_valid tool htool
  have hways : links.tree.KeepsWays t := (linkTools_addsFiles hbackup hman).ways
  obtain ⟨rfl, rfl⟩ := names_entry hctx (hreplaces.files.trans hways) hvalid hnames
  -- the drop-in is not put over the managed binary
  have hsudoers : t.place paths.sudoersPath = some (dir ++ [n]) := place_keeps hways hplace hdir
  have hne : ctx.managed ≠ dir ++ [n] := fun he => h.dropIn hbinary (hsudoers.trans (congrArg some he.symm))
  by_cases hover : ctx.entryOf name = dir ++ [n]
  · -- the entry point is the drop-in, and its path still leads there: a file was replaced
    have hwaysThen : links.tree.KeepsWays t' := by
      intro q o' ho' hk
      refine hreplaces.others (fun he => hk ?_) ho'
      rw [he, ← hover, hoe] at ho'
      exact Option.some.inj ho' ▸ hoeFile
    have hplaceThen := place_keeps hwaysThen hplace hdir
    obtain ⟨_, sudoersName, _, -, hsudoersName, -, hq⟩ := place_some.mp hplaceThen
    rw [← hover] at hplaceThen hq
    have hsame : sudoersName = name := by
      have hlast := (List.append_inj' hq rfl).2
      exact (Utf8.encode_inj.mp (List.cons.inj hlast).1).symm
    exact ⟨paths.sudoersPath, by simp [InstallPaths.fixed], ctx.entryDir, name, o,
      .of_place (hsame ▸ hsudoersName) hnul hplaceThen hnames.entry fun _ => hnames.no_link, rfl⟩
  · have hobj : t'.object (ctx.entryOf name) = some oe := hreplaces.others hover hoe
    have ho : o = oe := Option.some.inj ((Tree.entry_some.mp hnames.entry).2.2.symm.trans hobj)
    have hwaysThen : (t.withoutLinks (installPlaces t paths tools)).KeepsWays t' := by
      intro q o' ho' hk
      have hthen := ways hctx ho' hk
      by_cases hq : q = dir ++ [n]
      · obtain ⟨-, hnot⟩ := withoutLinks_object.mp ho'
        have hmem : q ∈ installPlaces t paths tools :=
          List.mem_filterMap.mpr ⟨paths.sudoersPath, List.mem_cons_self, hq ▸ hsudoers⟩
        cases hkind : o'.kind with
        | file => exact absurd hkind hk
        | dir => exact hreplaces.dirs hthen hkind
        | symlink target => exact absurd hmem (hnot (by rw [hkind]; rfl))
      · exact hreplaces.others hq hthen
    obtain ⟨od, hod, hodDir⟩ := Tree.kindAt_dir.mp hbinaryDir
    have hdirThen : (t.withoutLinks (installPlaces t paths tools)).kindAt ctx.binaryDir = .dir :=
      Tree.kindAt_dir.mpr ⟨od, withoutLinks_object.mpr ⟨hod, by rw [hodDir]; exact fun hl => by cases hl⟩, hodDir⟩
    have hplaceThen : t'.place paths.binary = some ctx.managed :=
      place_keeps hwaysThen (h.way.trans hbinary) hdirThen
    have hentryThen : t'.entry ctx.binaryDir (Utf8.encode binaryName) = some om := by
      refine Tree.entry_some.mpr ⟨(hwaysThen.kindAt (by simp [hdirThen])).trans hdirThen, ?_, ?_⟩
      · exact isEntryName_encode.mpr ⟨Path.isName_of_fileName hbinaryFile, hbinaryNul⟩
      · rw [← hbinaryName]
        exact hreplaces.others hne hom
    refine ⟨paths.binary, by simp [InstallPaths.fixed], ctx.binaryDir, binaryName, om, ?_, ?_⟩
    · refine .of_place hbinaryFile hbinaryNul ?_ hentryThen (by simp [homFile])
      rw [← hbinaryName]
      exact hplaceThen
    · rw [ho, homId, hoeId]

end BinaryStays

end SecureSudoers
