/-
Whose immutable bit an unlocking clears (`unlock_with_paths` in `installer.rs`).

The names of the tools come from a policy whose signature nobody has checked,
and what `validate` says of it is a warning. `unlockWithPaths_scope`: files
other than the managed ones and the entries of the entry-point directory are
safe exactly if no name that is no plain file name leads to one.
`unlock_strays` is a policy whose tool is an absolute path.
-/
import SecureSudoers.Unlock

namespace SecureSudoers

variable {k : FileRefusals} {m : Machine} {paths : InstallPaths} {st : Storage} {inode : ExecutableIdentity}

/-! ## What an unlocking changes -/

/-- `inode` is that of a managed file, or of an entry of the entry-point directory. -/
def InScope (paths : InstallPaths) (st : Storage) (inode : ExecutableIdentity) : Prop :=
  (∃ path ∈ paths.fixed, ∃ dir name o, Names st.tree path dir name o ∧ o.stat.identity = inode) ∨
    ∃ p dir n o, checkPath st.tree.fs paths.entryPointDir .positional [] = .ok ⟨p, dir⟩ ∧
      st.tree.entry dir n = some o ∧ o.stat.identity = inode

theorem unlockWithPaths_storage : (st.unlockWithPaths m paths).2 =
    (Storage.chattrEach m.files false (managedTargets paths (st.unlockedTools m paths)) st).2 := by
  unfold Storage.unlockWithPaths
  rw [Storage.chattrOp_minus]
  split <;> simp [*]

/-- The bits that change are those of the immutable files that its targets reach. -/
theorem unlockWithPaths_changes : (st.unlockWithPaths m paths).2.immutable inode ≠ st.immutable inode ↔
    st.immutable inode = true ∧
      ∃ path ∈ managedTargets paths (st.unlockedTools m paths), Storage.Reaches m.files st false path inode := by
  rw [unlockWithPaths_storage]
  cases hbit : st.immutable inode with
  | false => simp [Storage.chattrEach_stays hbit]
  | true =>
    rw [← Storage.chattrEach_reaches (by simp [hbit])]
    simp

/-- What is found without a policy are valid names. -/
theorem discoverManagedTools_valid {binary entryPointDir tool : Str}
    (h : tool ∈ st.discoverManagedTools m binary entryPointDir) : isValidToolName tool = true := by
  unfold Storage.discoverManagedTools at h
  split at h
  · cases h
  · split at h
    · cases h
    · rw [mem_eraseReps, List.mem_mergeSort, List.mem_filterMap] at h
      obtain ⟨entry, -, htool⟩ := h
      unfold Storage.managedTool at htool
      split at htool
      · cases htool
      · split at htool
        · split at htool
          · cases htool
          · split at htool
            · exact (Option.filter_eq_some_iff.mp htool).2
            · cases htool
        · cases htool
        · cases htool
        · cases htool

/-- A plain name leads to an entry of the entry-point directory. -/
theorem inScope_of_isName {tool : Str} (hname : Path.IsName tool)
    (h : Storage.Reaches k st false (Path.push paths.entryPointDir tool) inode) : InScope paths st inode := by
  obtain ⟨dir, name, o, hnames, hid, -⟩ := h.names
  have hrel : Path.isAbsolute tool = false := Path.not_isAbsolute_asOsStr (c := .normal tool) hname
  have habs : Path.isAbsolute paths.entryPointDir = true := by
    have hpush := hnames.absolute
    unfold Path.push at hpush
    rw [hrel, if_neg Bool.false_ne_true] at hpush
    cases hdir : paths.entryPointDir with
    | nil => simp [hdir, hrel] at hpush
    | cons c rest =>
      rw [hdir] at hpush
      split at hpush <;> simpa [Path.isAbsolute] using hpush
  obtain ⟨-, parent, hparent, habs', hbody⟩ := parent_push habs hname
  obtain ⟨parent', p, hparent', hcheck⟩ := hnames.parent
  cases hparent.symm.trans hparent'
  exact .inr ⟨p, dir, _, o, (checkPath_congr habs' habs hbody).mp hcheck, hnames.entry, hid⟩

/-- **An unlocking changes no file out of its scope** exactly if no name in the
policy other than a plain one leads to an immutable file there. -/
theorem unlockWithPaths_scope :
    (∀ inode, (st.unlockWithPaths m paths).2.immutable inode ≠ st.immutable inode → InScope paths st inode) ↔
      ∀ policy, st.loadPolicy m paths.policyPath = .ok policy → ∀ tool ∈ policy.tools.keys, ¬Path.IsName tool →
        ∀ inode, st.immutable inode = true →
          Storage.Reaches m.files st false (Path.push paths.entryPointDir tool) inode → InScope paths st inode := by
  simp only [unlockWithPaths_changes]
  constructor
  · intro hscope policy hload tool htool _ inode hbit hreaches
    have hmem : tool ∈ st.unlockedTools m paths := by
      rw [Storage.unlockedTools, hload]
      exact List.mem_mergeSort.mpr htool
    exact hscope inode ⟨hbit, _, mem_managedTargets.mpr (.inr ⟨tool, hmem, rfl⟩), hreaches⟩
  · intro hstray inode hchanges
    obtain ⟨hbit, path, hpath, hreaches⟩ := hchanges
    rcases mem_managedTargets.mp hpath with hfixed | ⟨tool, htool, rfl⟩
    · obtain ⟨dir, name, o, hnames, hid, -⟩ := hreaches.names
      exact .inl ⟨path, hfixed, dir, name, o, hnames, hid⟩
    · by_cases hname : Path.IsName tool
      · exact inScope_of_isName hname hreaches
      · unfold Storage.unlockedTools at htool
        split at htool
        · next policy hload => exact hstray policy hload tool (List.mem_mergeSort.mp htool) hname inode hbit hreaches
        · exact absurd (isName_tool (discoverManagedTools_valid htool)) hname

/-! ## A policy with a path for a tool -/

def shadowEntries : List (List Str × Object) :=
  [(["etc"], .directory), (["etc", "shadow"], .file 40), (["etc", "secure-sudoers"], .directory),
    (["etc", "secure-sudoers", "policy.json"], .file 20), (["usr"], .directory), (["usr", "local"], .directory),
    (["usr", "local", "bin"], .directory), (["usr", "local", "bin", "secure-sudoers"], .file 10)]

/-- A host whose `/etc/shadow` is immutable. -/
def shadowStorage : Storage where
  tree := .ofList shadowEntries
  flags inode := if inode.ino = 40 then LINUX_FS_IMMUTABLE_FL else 0
  content _ := []

/-- The machine whose policy has the tool `/etc/shadow`. -/
def shadowMachine : Machine :=
  { managedMachine allOpen with
    fromSlice := fun _ =>
      .ok { globalSettings := {}, tools := .single "/etc/shadow" { realBinary := "/usr/bin/cat" } } }

/-- **`/etc/shadow` loses its bit.** -/
theorem unlock_strays : ¬∀ (m : Machine) (paths : InstallPaths) (st : Storage) (inode : ExecutableIdentity),
    (st.unlockWithPaths m paths).2.immutable inode ≠ st.immutable inode → InScope paths st inode := by
  intro hall
  have htools : (shadowStorage.loadPolicy shadowMachine ({} : InstallPaths).policyPath).toOption.map (·.tools.keys) =
    some ["/etc/shadow".toList] := by decide +kernel
  obtain ⟨policy, hpolicy, hkeys⟩ := Option.map_eq_some_iff.mp htools
  have htool : "/etc/shadow".toList ∈ shadowStorage.unlockedTools shadowMachine {} := by
    rw [Storage.unlockedTools]
    generalize shadowStorage.loadPolicy shadowMachine ({} : InstallPaths).policyPath = loaded at hpolicy
    cases loaded with
    | error _ => cases hpolicy
    | ok policy' =>
      cases hpolicy
      simp [hkeys]
  have hchanges : (shadowStorage.unlockWithPaths shadowMachine {}).2.immutable ⟨0, 40⟩ ≠
      shadowStorage.immutable ⟨0, 40⟩ :=
    unlockWithPaths_changes.mpr ⟨by decide, _, mem_managedTargets.mpr (.inr ⟨_, htool, rfl⟩),
      Storage.names_iff.mp (by decide +kernel), rfl, rfl⟩
  rcases hall shadowMachine {} shadowStorage ⟨0, 40⟩ hchanges with
    ⟨path, hpath, dir, name, o, hnames, hid⟩ | ⟨p, dir, n, o, hcheck, ho, hid⟩
  · have hplaces : ∀ path ∈ ({} : InstallPaths).fixed, ((shadowStorage.tree.place path).bind
        shadowStorage.tree.object).map (·.stat.identity) ≠ some ⟨0, 40⟩ := by decide +kernel
    refine hplaces path hpath ?_
    rw [hnames.place, Option.bind_some, (Tree.entry_some.mp hnames.entry).2.2, Option.map_some, hid]
  · have hdir : (checkPath shadowStorage.tree.fs ({} : InstallPaths).entryPointDir .positional []).toOption.map (·.fd) =
        some ((["usr", "local", "bin"] : List Str).map Utf8.encode) := by decide +kernel
    rw [hcheck] at hdir
    obtain ⟨e, he, hname, rfl⟩ := Tree.mem_of_object_ofList (by simp) (Tree.entry_some.mp ho).2.2
    have hshort : ∀ e ∈ shadowEntries, e.2.stat.identity = ⟨0, 40⟩ → e.1.length = 2 := by decide
    have hdeep : dir.length = 3 := congrArg List.length (Option.some.inj hdir)
    have hlen := congrArg List.length hname
    simp [hshort e he hid, hdeep] at hlen

end SecureSudoers
