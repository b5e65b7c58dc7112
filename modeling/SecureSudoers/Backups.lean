/-
What becomes of the regular files of the entry-point directory when the links
are made (`installer/links.rs`, `install_tool_links_to`).

A tool's own file is moved to `<tool>.bak`, and `renameat` replaces what is
there. `installToolLinksTo_keeps` says when every file is still there at the
end, and `backup_lost` that a file which had the backup's name is not.
-/
import SecureSudoers.Installer
import SecureSudoers.Lib.Runs

namespace SecureSudoers

variable {k : Refusals} {ctx : LinkContext} {t t' : Tree} {tool : Str} {dir : List Bytes} {f : ExecutableIdentity}

namespace Tree

/-! ## The files of a directory -/

/-- Under `n` there is the regular file `f`. -/
def HasFile (t : Tree) (dir : List Bytes) (f : ExecutableIdentity) (n : Bytes) : Prop :=
  ∃ o, t.entry dir n = some o ∧ o.kind = .file ∧ o.stat.identity = f

/-- `f` has a name in the directory. -/
def Present (t : Tree) (dir : List Bytes) (f : ExecutableIdentity) : Prop := ∃ n, t.HasFile dir f n

/-- Every regular file with a name in the directory still has one. -/
def KeepsFiles (dir : List Bytes) (t t' : Tree) : Prop := ∀ f, t.Present dir f → t'.Present dir f

/-- `f` is under `n` and under no other name of the directory. -/
def Only (t : Tree) (dir : List Bytes) (f : ExecutableIdentity) (n : Bytes) : Prop :=
  t.HasFile dir f n ∧ ∀ m, m ≠ n → ¬t.HasFile dir f m

theorem HasFile.of_entry {n : Bytes} {o : Object} (ho : t.entry dir n = some o) :
    t.HasFile dir f n ↔ o.kind = .file ∧ o.stat.identity = f := by
  simp [HasFile, ho]

theorem HasFile.set {n m : Bytes} {x : Option Object} (hdir : t.kindAt dir = .dir) (hn : IsEntryName n) :
    (t.set dir n x).HasFile dir f m ↔
      if m = n then ∃ o, x = some o ∧ o.kind = .file ∧ o.stat.identity = f else t.HasFile dir f m := by
  unfold HasFile
  rw [entry_set hdir hn]
  split <;> rfl

/-- A symbolic link removed: the files are as they were. -/
theorem present_unlinkat {n : Bytes} {o : Object} (ho : t.entry dir n = some o) (hk : o.kind ≠ .file) :
    (t.set dir n none).Present dir f ↔ t.Present dir f := by
  obtain ⟨hdir, hn, -⟩ := entry_some.mp ho
  refine exists_congr fun m => ?_
  rw [HasFile.set hdir hn]
  split
  · next hm =>
    subst hm
    simp [HasFile.of_entry ho, hk]
  · rfl

/-- A new link: its file is there, and all that were. -/
theorem present_linkat {n : Bytes} {o : Object} (hdir : t.kindAt dir = .dir) (hn : IsEntryName n)
    (hfree : t.entry dir n = none) :
    (t.set dir n (some o)).Present dir f ↔ t.Present dir f ∨ (o.kind = .file ∧ o.stat.identity = f) := by
  constructor
  · intro ⟨m, hm⟩
    rw [HasFile.set hdir hn] at hm
    split at hm
    · obtain ⟨o', ho', hfile⟩ := hm
      cases ho'
      exact .inr hfile
    · exact .inl ⟨m, hm⟩
  · intro h
    rcases h with ⟨m, hm⟩ | hfile
    · have hne : m ≠ n := by
        intro he
        obtain ⟨o', ho', -⟩ := hm
        rw [he, hfree] at ho'
        cases ho'
      refine ⟨m, ?_⟩
      rw [HasFile.set hdir hn, if_neg hne]
      exact hm
    · refine ⟨n, ?_⟩
      rw [HasFile.set hdir hn, if_pos rfl]
      exact ⟨o, rfl, hfile⟩

/-- A file moved: all are there but the one that was under the new name only. -/
theorem present_renameat {old new : Bytes} {o : Object} (ho : t.entry dir old = some o) (hnew : IsEntryName new)
    (hne : old ≠ new) :
    ((t.set dir old none).set dir new (some o)).Present dir f ↔ t.Present dir f ∧ ¬t.Only dir f new := by
  obtain ⟨hdir, hold, -⟩ := entry_some.mp ho
  have hafter : ∀ m, ((t.set dir old none).set dir new (some o)).HasFile dir f m ↔
      if m = new then t.HasFile dir f old else m ≠ old ∧ t.HasFile dir f m := by
    intro m
    rw [HasFile.set (kindAt_set.trans hdir) hnew]
    split
    · simp [HasFile.of_entry ho]
    · rw [HasFile.set hdir hold]
      split <;> simp_all
  constructor
  · intro ⟨m, hm⟩
    rw [hafter] at hm
    split at hm
    · exact ⟨⟨old, hm⟩, fun honly => honly.2 old hne hm⟩
    · next hmn => exact ⟨⟨m, hm.2⟩, fun honly => honly.2 m hmn hm.2⟩
  · intro ⟨⟨m, hm⟩, hnot⟩
    -- a name of `f` other than the new one
    obtain ⟨m', hm', hother⟩ : ∃ m', t.HasFile dir f m' ∧ m' ≠ new := by
      by_cases hmn : m = new
      · subst hmn
        by_contra hall
        refine hnot ⟨hm, fun m' hne' hm' => hall ⟨m', hm', hne'⟩⟩
      · exact ⟨m, hm, hmn⟩
    by_cases hmo : m' = old
    · subst hmo
      refine ⟨new, ?_⟩
      rw [hafter, if_pos rfl]
      exact hm'
    · refine ⟨m', ?_⟩
      rw [hafter, if_neg hother]
      exact ⟨hmo, hm'⟩

end Tree

/-! ## One tool -/

/-- The backup of the tool's own file replaces the last name of `f`. -/
structure Overwrites (k : Refusals) (ctx : LinkContext) (t : Tree) (tool : Str) (f : ExecutableIdentity) : Prop where
  valid : isValidToolName tool = true ∧ '\x00' ∉ tool
  foreign : ∃ o, t.fstatat k ctx.entryDir (Utf8.encode tool) = .ok o ∧ o.kind = .file ∧
    o.stat.identity ≠ ctx.expectedIdentity
  moved : ∃ t', t.renameat k ctx.entryDir (Utf8.encode tool) (Utf8.encode (backupName tool)) = .ok t'
  only : t.Only ctx.entryDir f (Utf8.encode (backupName tool))

/-- The tool's new entry is `f`. -/
structure Relinks (k : Refusals) (ctx : LinkContext) (t : Tree) (tool : Str) (f : ExecutableIdentity) : Prop where
  valid : isValidToolName tool = true ∧ '\x00' ∉ tool
  linked : ∃ t₁ t', clearEntry k ctx t tool (Path.push ctx.entryPointDir tool) = .ok (t₁, false) ∧
    t₁.linkat k ctx.binaryDir ctx.binaryName ctx.entryDir (Utf8.encode tool) = .ok t' ∧
    t₁.HasFile ctx.binaryDir f ctx.binaryName

theorem encode_backupName_ne : Utf8.encode tool ≠ Utf8.encode (backupName tool) := by
  intro he
  exact absurd (congrArg List.length (Utf8.encode_inj.mp he)) (by simp [backupName])

/-- Clearing a tool's name loses what the backup replaces. -/
theorem clearEntry_present {linkPath : Str} {done : Bool} (hvalid : isValidToolName tool = true ∧ '\x00' ∉ tool)
    (h : clearEntry k ctx t tool linkPath = .ok (t', done)) :
    t'.Present ctx.entryDir f ↔ t.Present ctx.entryDir f ∧ ¬Overwrites k ctx t tool f := by
  unfold clearEntry at h
  extract_lets name at h
  have stays : ¬Overwrites k ctx t tool f → t' = t →
      (t'.Present ctx.entryDir f ↔ t.Present ctx.entryDir f ∧ ¬Overwrites k ctx t tool f) := by
    intro hnot ht
    rw [ht, and_iff_left hnot]
  split at h
  · next hstat =>
    cases h
    refine stays (fun how => ?_) rfl
    obtain ⟨o, ho, -⟩ := how.foreign
    cases hstat.symm.trans ho
  · cases h
  · next stat hstat =>
    have hentry := Tree.fstatat_ok hstat
    have hforeign : Overwrites k ctx t tool f → stat.kind = .file ∧ stat.stat.identity ≠ ctx.expectedIdentity := by
      intro how
      obtain ⟨o, ho, hfile⟩ := how.foreign
      cases hstat.symm.trans ho
      exact hfile
    split at h
    · next target hkind =>
      split at h
      · next hun =>
        cases h
        obtain ⟨-, rfl⟩ := Tree.unlinkat_ok hun
        have hfile : stat.kind ≠ .file := by
          rw [hkind]
          nofun
        rw [Tree.present_unlinkat hentry hfile, and_iff_left fun how => hfile (hforeign how).1]
      · cases h
    · next hkind =>
      split at h
      · next hid =>
        cases h
        exact stays (fun how => (hforeign how).2 hid) rfl
      · next hid =>
        split at h
        · next hren =>
          cases h
          have how : Overwrites k ctx t tool f ↔ t.Only ctx.entryDir f (Utf8.encode (backupName tool)) :=
            ⟨Overwrites.only, fun honly => ⟨hvalid, ⟨stat, hstat, hkind, hid⟩, ⟨_, hren⟩, honly⟩⟩
          obtain ⟨-, o, ho, -, ⟨ht, o', ho', hsame⟩ | rfl⟩ := Tree.renameat_ok hren
          · cases hentry.symm.trans ho
            refine stays (fun hover => ?_) ht
            -- the two names are links of one file, so neither is its only one
            obtain ⟨hbak, hnone⟩ := how.mp hover
            refine hnone _ encode_backupName_ne ((Tree.HasFile.of_entry hentry).mpr ⟨hkind, ?_⟩)
            rw [← hsame]
            exact ((Tree.HasFile.of_entry ho').mp hbak).2
          · cases hentry.symm.trans ho
            rw [how]
            exact Tree.present_renameat hentry (isEntryName_tool hvalid.1 hvalid.2).2 encode_backupName_ne
        · cases h
    · cases h

/-- A tool's name that cannot be cleared: nothing is moved. -/
theorem clearEntry_error {linkPath e : Str} (h : clearEntry k ctx t tool linkPath = .error e) :
    ¬Overwrites k ctx t tool f := by
  intro how
  obtain ⟨o, ho, hkind, hid⟩ := how.foreign
  obtain ⟨t', ht'⟩ := how.moved
  simp [clearEntry, ho, hkind, hid, ht'] at h

/-- The file system after a tool whose name is valid. -/
theorem linkTool_tree (hvalid : isValidToolName tool = true ∧ '\x00' ∉ tool) : (linkTool k ctx t tool).1 =
    match clearEntry k ctx t tool (Path.push ctx.entryPointDir tool) with
    | .error _ => t
    | .ok (t₁, true) => t₁
    | .ok (t₁, false) =>
      match t₁.linkat k ctx.binaryDir ctx.binaryName ctx.entryDir (Utf8.encode tool) with
      | .ok t₂ => t₂
      | .error _ => t₁ := by
  simp only [linkTool]
  rw [if_neg (by simp [hvalid.1]), if_neg hvalid.2]
  cases clearEntry k ctx t tool (Path.push ctx.entryPointDir tool) with
  | error e => rfl
  | ok cleared =>
    obtain ⟨t₁, done⟩ := cleared
    cases done with
    | true => rfl
    | false =>
      dsimp only
      cases t₁.linkat k ctx.binaryDir ctx.binaryName ctx.entryDir (Utf8.encode tool) with
      | ok t₂ => rfl
      | error e =>
        dsimp only
        split <;> rfl

/-- Where no link is made no file is linked. -/
theorem not_relinks (h : ∀ t₁ t₂, clearEntry k ctx t tool (Path.push ctx.entryPointDir tool) = .ok (t₁, false) →
    t₁.linkat k ctx.binaryDir ctx.binaryName ctx.entryDir (Utf8.encode tool) ≠ .ok t₂) :
    ¬Relinks k ctx t tool f := by
  intro hre
  obtain ⟨t₁, t₂, hclear, hlink, -⟩ := hre.linked
  exact h t₁ t₂ hclear hlink

/-- **One tool** loses the file its backup replaces, and adds the one it links. -/
theorem linkTool_present : (linkTool k ctx t tool).1.Present ctx.entryDir f ↔
    (t.Present ctx.entryDir f ∧ ¬Overwrites k ctx t tool f) ∨ Relinks k ctx t tool f := by
  by_cases hvalid : isValidToolName tool = true ∧ '\x00' ∉ tool
  · cases hclear : clearEntry k ctx t tool (Path.push ctx.entryPointDir tool) with
    | error e =>
      have htree : (linkTool k ctx t tool).1 = t := by rw [linkTool_tree hvalid, hclear]
      have hno : ¬Relinks k ctx t tool f := not_relinks fun _ _ hclear' => by cases hclear.symm.trans hclear'
      rw [htree, or_iff_left hno, and_iff_left (clearEntry_error hclear)]
    | ok cleared =>
      obtain ⟨t₁, done⟩ := cleared
      have hkept := clearEntry_present (f := f) hvalid hclear
      cases done with
      | true =>
        have htree : (linkTool k ctx t tool).1 = t₁ := by rw [linkTool_tree hvalid, hclear]
        have hno : ¬Relinks k ctx t tool f := not_relinks fun _ _ hclear' => by cases hclear.symm.trans hclear'
        rw [htree, or_iff_left hno, hkept]
      | false =>
        cases hlink : t₁.linkat k ctx.binaryDir ctx.binaryName ctx.entryDir (Utf8.encode tool) with
        | error e =>
          have htree : (linkTool k ctx t tool).1 = t₁ := by simp [linkTool_tree hvalid, hclear, hlink]
          have hno : ¬Relinks k ctx t tool f := not_relinks fun _ _ hclear' hlink' => by
            cases hclear.symm.trans hclear'
            cases hlink.symm.trans hlink'
          rw [htree, or_iff_left hno, hkept]
        | ok t₂ =>
          have htree : (linkTool k ctx t tool).1 = t₂ := by simp [linkTool_tree hvalid, hclear, hlink]
          obtain ⟨o, ho, -, hfree, hdir, rfl⟩ := Tree.linkat_ok hlink
          have hadds : Relinks k ctx t tool f ↔ o.kind = .file ∧ o.stat.identity = f := by
            rw [← Tree.HasFile.of_entry ho]
            constructor
            · intro ⟨_, t₂, t', hclear', _, hfile⟩
              cases hclear.symm.trans hclear'
              exact hfile
            · intro hfile
              exact ⟨hvalid, t₁, _, hclear, hlink, hfile⟩
          rw [htree, hadds, ← hkept]
          exact Tree.present_linkat hdir (isEntryName_tool hvalid.1 hvalid.2).1 hfree
  · have htree : (linkTool k ctx t tool).1 = t := by
      simp only [linkTool]
      split
      · rfl
      · split
        · rfl
        · next hname hnul => exact absurd ⟨by simpa using hname, hnul⟩ hvalid
    have hover : ¬Overwrites k ctx t tool f := fun how => hvalid how.valid
    have hno : ¬Relinks k ctx t tool f := fun hre => hvalid hre.valid
    rw [htree, or_iff_left hno, and_iff_left hover]

/-! ## The loop -/

/-- The loop's file system is that of its tools, one after the other. -/
theorem linkTools_tree {tools : List Str} :
    (linkTools k ctx t tools).tree = tools.foldl (fun t tool => (linkTool k ctx t tool).1) t := by
  induction tools generalizing t with
  | nil => rfl
  | cons tool rest ih =>
    rw [List.foldl_cons, ← ih, linkTools]
    obtain ⟨t', r⟩ := linkTool k ctx t tool
    cases r <;> rfl

/-- No file is lost for good: a tool whose backup replaces the last name of one
comes before a tool that links it again, or does so itself. -/
def BackupsSpare (k : Refusals) (ctx : LinkContext) (t : Tree) (tools : List Str) : Prop :=
  ∀ f front tool, t.Present ctx.entryDir f → front ++ [tool] <+: tools →
    Overwrites k ctx (linkTools k ctx t front).tree tool f →
    ∃ front' tool', front <+: front' ∧ front' ++ [tool'] <+: tools ∧
      Relinks k ctx (linkTools k ctx t front').tree tool' f

theorem linkTools_keeps {tools : List Str} :
    t.KeepsFiles ctx.entryDir (linkTools k ctx t tools).tree ↔ BackupsSpare k ctx t tools := by
  let step := fun t tool => (linkTool k ctx t tool).1
  have hone : ∀ f, t.Present ctx.entryDir f → ((linkTools k ctx t tools).tree.Present ctx.entryDir f ↔
      Runs.Regained step (Overwrites k ctx · · f) (Relinks k ctx · · f) t tools) := by
    intro f hf
    rw [linkTools_tree]
    exact @Runs.holds_foldl _ _ step (·.Present ctx.entryDir f) _ _ _ _ (fun _ _ => linkTool_present) hf
  constructor
  · intro hkeeps f front tool hf hfront hover
    rw [linkTools_tree] at hover
    obtain ⟨front', tool', hle, hfront', hre⟩ := (hone f hf).mp (hkeeps f hf) front tool hfront hover
    refine ⟨front', tool', hle, hfront', ?_⟩
    rw [linkTools_tree]
    exact hre
  · intro hspare f hf
    refine (hone f hf).mpr fun front tool hfront hover => ?_
    rw [← linkTools_tree] at hover
    obtain ⟨front', tool', hle, hfront', hre⟩ := hspare f front tool hf hfront hover
    rw [linkTools_tree] at hre
    exact ⟨front', tool', hle, hfront', hre⟩

/-- **The files of the entry-point directory** are all there when the links are
made, exactly if no backup replaces the last name of one for good. -/
theorem installToolLinksTo_keeps {euid : Nat} {tools : List Str} {binary entryPointDir : Str}
    {secureDir : SecurePath (List Bytes)} (hdir : checkPath t.fs entryPointDir .positional [] = .ok secureDir) :
    t.KeepsFiles secureDir.fd (installToolLinksTo k euid t tools binary entryPointDir).tree ↔
      ∀ ctx, prepareLinks k euid t binary entryPointDir = .ok ctx → BackupsSpare k ctx t tools := by
  unfold installToolLinksTo
  cases hprepare : prepareLinks k euid t binary entryPointDir with
  | error e =>
    refine iff_of_true (fun _ hf => hf) ?_
    intro ctx hctx
    cases hctx
  | ok ctx =>
    obtain ⟨-, -, ⟨path, hdir'⟩, -⟩ := prepareLinks_ok hprepare
    cases hdir.symm.trans hdir'
    dsimp only
    rw [linkTools_keeps]
    constructor
    · intro hspare ctx' hctx'
      cases hctx'
      exact hspare
    · intro hspare
      exact hspare ctx rfl

/-! ## A host -/

/-- `/usr/local/bin` and what is above it. -/
def binDirs : List (List Str × Object) :=
  [(["usr"], .directory), (["usr", "local"], .directory), (["usr", "local", "bin"], .directory)]

/-- A host with these regular files in `/usr/local/bin`. -/
def binWith (files : List (Str × Nat)) : Tree :=
  .ofList (binDirs ++ files.map fun e => (["usr".toList, "local".toList, "bin".toList, e.1], .file e.2))

/-- Where they are. -/
def usrLocalBin : List Bytes := [Utf8.encode "usr", Utf8.encode "local", Utf8.encode "bin"]

theorem hasFile_binWith {files : List (Str × Nat)} {n : Bytes} (h : (binWith files).HasFile usrLocalBin f n) :
    ∃ e ∈ files, n = Utf8.encode e.1 ∧ f.ino = e.2 := by
  obtain ⟨o, ho, hk, rfl⟩ := h
  obtain ⟨-, -, hobj⟩ := Tree.entry_some.mp ho
  obtain ⟨e, he, hname, rfl⟩ := Tree.mem_of_object_ofList (by simp) hobj
  rcases List.mem_append.mp he with hdir | hfile
  · have hdirs : e.2 = .directory := by
      simp only [binDirs, List.mem_cons, List.not_mem_nil, or_false] at hdir
      rcases hdir with rfl | rfl | rfl <;> rfl
    rw [hdirs] at hk
    cases hk
  · obtain ⟨file, hmem, rfl⟩ := List.mem_map.mp hfile
    refine ⟨file, hmem, ?_, rfl⟩
    have hlast := congrArg List.getLast? hname
    simpa [usrLocalBin] using hlast.symm

/-- A host with an `apt` of its own. -/
def aptOwn : Tree := binWith [("secure-sudoers", 10), ("apt", 30)]

/-- It has no file of the backup's name, and none is lost. -/
theorem apt_kept : aptOwn.KeepsFiles usrLocalBin
    (installToolLinksTo (fun _ _ => none) 0 aptOwn ["apt"] "/usr/local/bin/secure-sudoers" "/usr/local/bin").tree := by
  have hcheck : checkPath aptOwn.fs "/usr/local/bin" .positional [] = .ok _ := eq_ok_get (by decide +kernel)
  have hdir : ((checkPath aptOwn.fs "/usr/local/bin" .positional []).toOption.get (by decide +kernel)).fd =
    usrLocalBin := by decide +kernel
  have hkeeps : aptOwn.KeepsFiles _ (installToolLinksTo (fun _ _ => none) 0 aptOwn ["apt"]
    "/usr/local/bin/secure-sudoers" "/usr/local/bin").tree ↔ _ := installToolLinksTo_keeps hcheck
  rw [hdir] at hkeeps
  refine hkeeps.mpr fun ctx hctx f front tool _ hfront hover => ?_
  obtain ⟨-, -, ⟨path, hdir'⟩, -⟩ := prepareLinks_ok hctx
  rw [hcheck] at hdir'
  have hentry : ctx.entryDir = usrLocalBin := by rw [← hdir, Except.ok.inj hdir']
  have hlen := hfront.length_le
  obtain rfl : front = [] := List.length_eq_zero_iff.mp (by simpa using hlen)
  obtain rfl : tool = "apt".toList := (List.cons_prefix_cons.mp hfront).1
  have hbak := hover.only.1
  rw [hentry] at hbak
  obtain ⟨e, he, hname, -⟩ := hasFile_binWith hbak
  rw [Utf8.encode_inj] at hname
  have hnone : ∀ e ∈ ([("secure-sudoers", 10), ("apt", 30)] : List (Str × Nat)), e.1 ≠ backupName "apt" := by decide
  exact absurd hname.symm (hnone e he)

/-- A host with an `apt` of its own, and an older one. -/
def aptBackedUp : Tree := binWith [("secure-sudoers", 10), ("apt", 30), ("apt.bak", 31)]

/-- The installation moves the one onto the other. -/
theorem aptBackedUp_overwrites (hentry : ctx.entryDir = usrLocalBin) (hid : ctx.expectedIdentity = ⟨0, 10⟩) :
    Overwrites (fun _ _ => none) ctx aptBackedUp "apt" ⟨0, 31⟩ where
  valid := by decide
  foreign := by
    refine ⟨.file 30, ?_, rfl, ?_⟩
    · rw [hentry]
      rfl
    · rw [hid]
      decide
  moved := by
    rw [hentry]
    exact ⟨_, rfl⟩
  only := by
    rw [hentry]
    refine ⟨⟨.file 31, rfl, rfl, rfl⟩, fun m hm hfile => ?_⟩
    obtain ⟨e, he, hname, hino⟩ := hasFile_binWith hfile
    have hbak : ∀ e ∈ ([("secure-sudoers", 10), ("apt", 30), ("apt.bak", 31)] : List (Str × Nat)), e.2 = 31 →
        e.1 = backupName "apt" := by decide
    rw [hname, hbak e he hino.symm] at hm
    exact hm rfl

/-- The older one is lost. -/
theorem backup_lost : ¬∀ (k : Refusals) (euid : Nat) (t : Tree) (tools : List Str) (binary entryPointDir : Str)
    (secureDir : SecurePath (List Bytes)), checkPath t.fs entryPointDir .positional [] = .ok secureDir →
    t.KeepsFiles secureDir.fd (installToolLinksTo k euid t tools binary entryPointDir).tree := by
  intro hall
  have hcheck : checkPath aptBackedUp.fs "/usr/local/bin" .positional [] = .ok _ := eq_ok_get (by decide +kernel)
  have hdir : ((checkPath aptBackedUp.fs "/usr/local/bin" .positional []).toOption.get (by decide +kernel)).fd =
    usrLocalBin := by decide +kernel
  obtain ⟨ctx, hprepare, hentry, hbinary, hid⟩ : ∃ ctx,
      prepareLinks (fun _ _ => none) 0 aptBackedUp "/usr/local/bin/secure-sudoers" "/usr/local/bin" = .ok ctx ∧
        ctx.entryDir = usrLocalBin ∧ ctx.managed = usrLocalBin ++ [Utf8.encode "secure-sudoers"] ∧
        ctx.expectedIdentity = ⟨0, 10⟩ :=
    ⟨_, eq_ok_get (by decide +kernel), by decide +kernel, by decide +kernel, by decide +kernel⟩
  have hkeeps := hall (fun _ _ => none) 0 aptBackedUp ["apt"] "/usr/local/bin/secure-sudoers" _ _ hcheck
  have hover := aptBackedUp_overwrites hentry hid
  rw [installToolLinksTo, hprepare, hdir] at hkeeps
  dsimp only at hkeeps
  rw [linkTools_tree, List.foldl_cons, List.foldl_nil, ← hentry] at hkeeps
  rcases linkTool_present.mp (hkeeps ⟨0, 31⟩ ⟨_, hover.only.1⟩) with ⟨-, hno⟩ | hre
  · exact hno hover
  · -- what is linked is the managed binary, which is another file
    obtain ⟨t₁, t', hclear, -, o, ho, -, ho31⟩ := hre.linked
    obtain ⟨htouches, -⟩ := clearEntry_ok hover.valid.1 hover.valid.2 hclear
    have hobj : t₁.object ctx.managed = aptBackedUp.object ctx.managed := by
      refine htouches.only ?_ ?_
      · rw [hbinary, LinkContext.entryOf, hentry]
        decide
      · rw [hbinary, LinkContext.entryOf, hentry]
        decide
    have hfile : some o = some (.file 10) := by
      rw [← (Tree.entry_some.mp ho).2.2, ← LinkContext.managed, hobj, hbinary]
      rfl
    rw [Option.some.inj hfile] at ho31
    exact absurd ho31 (by decide)

end SecureSudoers
