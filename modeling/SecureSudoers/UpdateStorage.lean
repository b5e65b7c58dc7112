/-
The update on a file system with its inodes (`network.rs`): what it does to the
files of its directory, calls of the kernel do.

A file that is made is not immutable, and one that is renamed, replaced or
removed must not be. `runWithClient_realized`: where a directory shows the files
an attempt finds, there are calls after which it shows the files it leaves.
-/
import SecureSudoers.Unlock

namespace SecureSudoers

open Relation (ReflTransGen)

/-! ## The steps on the files -/

/-- One step of an update. -/
inductive DirStep (files : Dir) : Dir → Prop where
  | create {name : Str} {f : RegularFile} : IsEntryName (Utf8.encode name) → files.lookup name = none →
      f.immutable = false → DirStep files (files.insert name f)
  | remove {name : Str} {f : RegularFile} : files.lookup name = some f → f.immutable = false →
      DirStep files (files.erase name)
  | rename {old new : Str} {f : RegularFile} : IsEntryName (Utf8.encode new) → old ≠ new → files.lookup old = some f →
      f.immutable = false → (files.lookup new).any (·.immutable) = false →
      DirStep files ((files.erase old).insert new f)
  | lock {name : Str} {f : RegularFile} : files.lookup name = some f →
      DirStep files (files.insert name { f with immutable := true })

abbrev DirSteps : Dir → Dir → Prop := ReflTransGen DirStep

/-- The names an update gives are names of entries. -/
structure EntryNames (o : Faults) (dest : Destination) : Prop where
  temp (r : Role) (dir : Dir) : IsEntryName (Utf8.encode (o.tempName r dir))
  no_nul : '\x00' ∉ dest.name

variable {o : Faults} {dest : Destination} {dir dir' : Dir}

namespace EntryNames

theorem policy (h : EntryNames o dest) : IsEntryName (Utf8.encode dest.name) :=
  isEntryName_encode.mpr ⟨dest.isName, h.no_nul⟩

theorem sig (h : EntryNames o dest) : IsEntryName (Utf8.encode dest.sigName) := by
  refine isEntryName_encode.mpr ⟨⟨?_, ?_, ?_, ?_⟩, ?_⟩
  · exact List.append_ne_nil_of_left_ne_nil dest.isName.ne_nil _
  · exact fun he => absurd (congrArg List.length he) (by simp [Destination.sigName])
  · exact fun he => absurd (congrArg List.length he) (by simp [Destination.sigName])
  · exact fun hm => (List.mem_append.mp hm).elim dest.isName.no_slash (by decide)
  · exact fun hm => (List.mem_append.mp hm).elim h.no_nul (by decide)

end EntryNames

/-- What is staged is not immutable. -/
theorem staged_immutable {steps : List TempStep} {f : RegularFile} :
    (steps.foldl TempStep.apply f).immutable = f.immutable := by
  induction steps generalizing f with
  | nil => rfl
  | cons step steps ih =>
    rw [List.foldl_cons, ih]
    cases step <;> rfl

theorem runSteps_immutable {r : Role} {steps : List TempStep} {f : RegularFile} :
    (runSteps o r steps f).2.immutable = f.immutable := by
  induction steps generalizing f with
  | nil => rfl
  | cons step steps ih =>
    unfold runSteps
    split
    · cases step <;> rfl
    · rw [ih]
      cases step <;> rfl

theorem dropTemp_steps {r : Role} {tmp : Str} {f : RegularFile} (htmp : dir.lookup tmp = some f)
    (hnot : f.immutable = false) : DirSteps dir (dropTemp o r tmp dir) := by
  unfold dropTemp
  split
  · exact .refl
  · exact .single (.remove htmp hnot)

/-- A temporary file that is not finished has been made, and perhaps removed. -/
theorem stage_broken (hnames : EntryNames o dest) {r : Role} {steps : List TempStep} {e : TempFailure}
    (h : stage o r steps dir = (.error e, dir')) : DirSteps dir dir' := by
  unfold stage at h
  split at h
  · cases h
    exact .refl
  · extract_lets tmp at h
    split at h
    · next hrun =>
      cases h
      have hnot := @runSteps_immutable o r steps { bytes := [], mode := 0o600 }
      rw [hrun] at hnot
      exact .head (.create (hnames.temp r dir) (o.tempName_new r dir) hnot) (dropTemp_steps (Finmap.lookup_insert _) hnot)
    · cases h

theorem stage_steps (hnames : EntryNames o dest) {r : Role} {steps : List TempStep} {tmp : Str}
    (h : stage o r steps dir = (.ok tmp, dir')) : DirStep dir dir' ∧
      ∃ f, dir'.lookup tmp = some f ∧ f.immutable = false ∧ dir' = dir.insert tmp f ∧ dir.lookup tmp = none ∧
        Str.startsWith tmp tempStart = true := by
  obtain ⟨rfl, rfl⟩ := stage_ok h
  have hnew := o.tempName_new r dir
  exact ⟨.create (hnames.temp r dir) hnew staged_immutable, _, Finmap.lookup_insert _, staged_immutable, rfl, hnew,
    o.tempName_temp r dir⟩

theorem persist_steps {r : Role} {tmp target : Str} {f : RegularFile} {x : Except Errno Unit}
    (h : persist o r tmp target dir = (x, dir')) (htmp : dir.lookup tmp = some f) (hnot : f.immutable = false)
    (hname : IsEntryName (Utf8.encode target)) (hne : tmp ≠ target) : DirSteps dir dir' := by
  cases x with
  | error e =>
    rw [persist_error htmp h]
    exact dropTemp_steps htmp hnot
  | ok u =>
    have hfree : (dir.lookup target).any (·.immutable) = false := by
      unfold persist at h
      split at h
      · cases h
      · rw [htmp] at h
        dsimp only at h
        split at h
        · cases h
        · next hfree => simpa using hfree
    rw [persist_ok htmp h]
    exact .single (.rename hname hne htmp hnot hfree)

/-- Another file is not dropped with it. -/
theorem lookup_dropTemp {r : Role} {tmp n : Str} (hn : n ≠ tmp) : (dropTemp o r tmp dir).lookup n = dir.lookup n := by
  unfold dropTemp
  split
  · rfl
  · exact Finmap.lookup_erase_ne hn

theorem chattrOp_steps {targets : List (Role × Str)} : DirSteps dir (chattrOp o targets dir).2 := by
  induction targets generalizing dir with
  | nil => exact .refl
  | cons target targets ih =>
    obtain ⟨r, name⟩ := target
    unfold chattrOp
    split
    · exact ih
    · split
      · exact ih
      · next hfile => exact .head (.lock hfile) ih

/-- The rollback, where the signature that was put in place is not immutable. -/
theorem restoreSignature_steps (hnames : EntryNames o dest) {previousSig : Option Bytes} {previousSigMode : Option Nat}
    {wasImmutable : Bool} (hsig : (dir.lookup dest.sigName).any (·.immutable) = false) :
    DirSteps dir (restoreSignature o dest previousSig previousSigMode wasImmutable dir).2 := by
  unfold restoreSignature
  split
  · exact .refl
  · cases previousSig with
    | none =>
      dsimp only
      split
      · exact .refl
      · exact .refl
      · next hfile _ =>
        rw [hfile] at hsig
        exact .single (.remove hfile hsig)
    | some bytes =>
      dsimp only
      split
      · next hstage => exact stage_broken hnames hstage
      · next hstage => exact stage_broken hnames hstage
      · next tmp dirTmp hstage =>
        obtain ⟨hcreate, f, htmp, hnot, -, -, htemp⟩ := stage_steps hnames hstage
        have hpersisted : ∀ {x dir'}, persist o .oldSig tmp dest.sigName dirTmp = (x, dir') → DirSteps dirTmp dir' :=
          fun h => persist_steps h htmp hnot hnames.sig (ne_of_temp htemp dest.sigName_lasting)
        split
        · next hpersist => exact .head hcreate (hpersisted hpersist)
        · next dirSig hpersist =>
          have hsteps : DirSteps dir dirSig := .head hcreate (hpersisted hpersist)
          split
          · have hlocked := @chattrOp_steps o dirSig [(.oldSig, dest.sigName)]
            split
            · next heq =>
              rw [heq] at hlocked
              exact hsteps.trans hlocked
            · next heq =>
              rw [heq] at hlocked
              exact hsteps.trans hlocked
          · exact hsteps

/-- The policy is renamed, or the signature goes back. -/
theorem rollback_steps (hnames : EntryNames o dest) {prior : Prior} {tmp : Str} {f : RegularFile}
    (htmp : dir.lookup tmp = some f) (hnot : f.immutable = false) (htemp : Str.startsWith tmp tempStart = true)
    (hsig : (dir.lookup dest.sigName).any (·.immutable) = false) :
    DirSteps dir (runWithSignatureRollback o dest prior (policyStep o dest tmp) dir).2 := by
  obtain ⟨x, after, hpersist⟩ : ∃ x after, persist o .policy tmp dest.name dir = (x, after) := ⟨_, _, rfl⟩
  have hstep := persist_steps hpersist htmp hnot hnames.policy (ne_of_temp htemp dest.lasting)
  unfold runWithSignatureRollback policyStep
  cases x with
  | ok u =>
    simp only [hpersist]
    exact hstep
  | error e =>
    have hsig' : (after.lookup dest.sigName).any (·.immutable) = false := by
      rw [persist_error htmp hpersist, lookup_dropTemp (ne_of_temp htemp dest.sigName_lasting).symm]
      exact hsig
    have hback := @restoreSignature_steps o dest after hnames prior.previousSig prior.sigMode prior.sigWasImmutable
      hsig'
    simp only [hpersist]
    split
    · next heq =>
      rw [heq] at hback
      exact hstep.trans hback
    · next heq =>
      rw [heq] at hback
      exact hstep.trans hback

theorem restoreImmutable_steps {prior : Prior} : DirSteps dir (restoreImmutableIfNeeded o dest prior dir).2 := by
  unfold restoreImmutableIfNeeded
  extract_lets targets
  have hlocked := @chattrOp_steps o dir targets
  split
  · next heq =>
    rw [heq] at hlocked
    exact hlocked
  · next heq =>
    rw [heq] at hlocked
    exact hlocked

/-- **What `install_update` does to the directory, such steps do.** -/
theorem installUpdate_steps (hnames : EntryNames o dest) {policyBytes sigBytes : Bytes} :
    DirSteps dir (installUpdate o dest policyBytes sigBytes dir).2 := by
  unfold installUpdate
  split
  · exact .refl
  split
  · exact .refl
  next prior hprior =>
  split
  · next hstage => exact stage_broken hnames hstage
  next tmpSig dirSig hstageSig =>
  obtain ⟨hcreateSig, fSig, hfSig, hnotSig, -, -, htempSig⟩ := stage_steps hnames hstageSig
  split
  · next dirPolicy hstage =>
    have hfSig' : dirPolicy.lookup tmpSig = some fSig :=
      ((stage_error hstage tmpSig).resolve_right fun hnone => by simp [hfSig] at hnone).trans hfSig
    exact (ReflTransGen.head hcreateSig (stage_broken hnames hstage)).trans (dropTemp_steps hfSig' hnotSig)
  next tmpPolicy dirPolicy hstagePolicy =>
  obtain ⟨hcreatePolicy, fPolicy, hfPolicy, hnotPolicy, hinsert, hnewPolicy, htempPolicy⟩ :=
    stage_steps hnames hstagePolicy
  have hne : tmpSig ≠ tmpPolicy := by
    rintro rfl
    rw [hfSig] at hnewPolicy
    cases hnewPolicy
  have hfSig' : dirPolicy.lookup tmpSig = some fSig := by rw [hinsert, Finmap.lookup_insert_of_ne _ hne, hfSig]
  have hstaged : DirSteps dir dirPolicy := .tail (.single hcreateSig) hcreatePolicy
  have hneSig : tmpSig ≠ dest.sigName := ne_of_temp htempSig dest.sigName_lasting
  split
  · next e dirErased hpersist =>
    have hstep := persist_steps hpersist hfSig' hnotSig hnames.sig hneSig
    have hfPolicy' : dirErased.lookup tmpPolicy = some fPolicy := by
      rw [persist_error hfSig' hpersist, lookup_dropTemp hne.symm, hfPolicy]
    exact (hstaged.trans hstep).trans (dropTemp_steps hfPolicy' hnotPolicy)
  next dirPut hpersist =>
  have hstep := persist_steps hpersist hfSig' hnotSig hnames.sig hneSig
  have hput := persist_ok hfSig' hpersist
  have hfPolicy' : dirPut.lookup tmpPolicy = some fPolicy := by
    rw [hput, Finmap.lookup_insert_of_ne _ (ne_of_temp htempPolicy dest.sigName_lasting),
      Finmap.lookup_erase_ne hne.symm, hfPolicy]
  have hsig : (dirPut.lookup dest.sigName).any (·.immutable) = false := by
    rw [hput, Finmap.lookup_insert]
    exact hnotSig
  have hrollback := @rollback_steps o dest dirPut hnames prior tmpPolicy fPolicy hfPolicy' hnotPolicy htempPolicy hsig
  split
  · next heq =>
    rw [heq] at hrollback
    exact (hstaged.trans hstep).trans hrollback
  · next heq =>
    rw [heq] at hrollback
    exact ((hstaged.trans hstep).trans hrollback).trans restoreImmutable_steps

theorem runWithClient_steps {Key D : Type} {u : Updater Key D} {a : Attempt Key} (hnames : EntryNames a.faults u.dest) :
    DirSteps dir (runWithClient u a dir).2 := by
  unfold runWithClient
  split
  · exact .refl
  · exact installUpdate_steps hnames

/-! ## The calls on the storage -/

theorem fileAt_none {st : Storage} {q : List Bytes} {name : Str} (h : st.tree.entry q (Utf8.encode name) = none) :
    st.fileAt q name = none := by rw [Storage.fileAt, h]

theorem fileAt_some {st : Storage} {q : List Bytes} {name : Str} {o : Object}
    (h : st.tree.entry q (Utf8.encode name) = some o) (hfile : o.kind = .file) : st.fileAt q name =
      some { bytes := st.content o.stat.identity, mode := o.stat.mode, immutable := st.immutable o.stat.identity } := by
  rw [Storage.fileAt, h]
  exact if_pos hfile

/-- A file is what it was, if its entry and what its inode holds are. -/
theorem fileAt_same {st st' : Storage} {q : List Bytes} {name : Str}
    (hentry : st'.tree.entry q (Utf8.encode name) = st.tree.entry q (Utf8.encode name))
    (hinode : ∀ o, st.tree.entry q (Utf8.encode name) = some o →
      st'.content o.stat.identity = st.content o.stat.identity ∧
        st'.immutable o.stat.identity = st.immutable o.stat.identity) : st'.fileAt q name = st.fileAt q name := by
  rw [Storage.fileAt, Storage.fileAt, hentry]
  cases ho : st.tree.entry q (Utf8.encode name) with
  | none => rfl
  | some o =>
    obtain ⟨hcontent, himm⟩ := hinode o ho
    dsimp only
    rw [hcontent, himm]

/-- A directory of files, each under one name in it, and what is in them. -/
structure Stores (st : Storage) (q : List Bytes) (files : Dir) : Prop where
  shows : st.Shows q files
  is_dir : st.tree.kindAt q = .dir
  only_files {n : Bytes} {o : Object} : st.tree.entry q n = some o → o.kind = .file
  apart {n n' : Bytes} {o o' : Object} : st.tree.entry q n = some o → st.tree.entry q n' = some o' →
    o.stat.identity = o'.stat.identity → n = n'
  /-- There are always inodes left. -/
  spare : {inode | st.immutable inode = false ∧ ∀ n o, st.tree.entry q n = some o → o.stat.identity ≠ inode}.Infinite

/-- The kernel refuses no more than it must. -/
def noRefusals : Refusals := fun _ _ => none

namespace Stores

variable {st : Storage} {q : List Bytes} {files : Dir} {name : Str} {f : RegularFile}

/-- The entry of a file that is shown. -/
theorem entry (h : Stores st q files) (hfile : files.lookup name = some f) :
    ∃ o, st.tree.entry q (Utf8.encode name) = some o ∧ o.kind = .file ∧ st.content o.stat.identity = f.bytes ∧
      o.stat.mode = f.mode ∧ st.immutable o.stat.identity = f.immutable := by
  have hshown := (h.shows name).symm.trans hfile
  unfold Storage.fileAt at hshown
  split at hshown
  · cases hshown
  · next o ho =>
    rw [if_pos (h.only_files ho)] at hshown
    cases hshown
    exact ⟨o, ho, h.only_files ho, rfl, rfl, rfl⟩

theorem no_entry (h : Stores st q files) (hfile : files.lookup name = none) :
    st.tree.entry q (Utf8.encode name) = none := by
  have hshown := (h.shows name).symm.trans hfile
  unfold Storage.fileAt at hshown
  split at hshown
  · assumption
  · next o ho =>
    rw [if_pos (h.only_files ho)] at hshown
    cases hshown

/-- A file is removed. -/
theorem remove (h : Stores st q files) (hfile : files.lookup name = some f) (hnot : f.immutable = false) :
    ∃ st', ReflTransGen (Change noRefusals q) st st' ∧ Stores st' q (files.erase name) := by
  obtain ⟨o, ho, hkind, -, -, himm⟩ := h.entry hfile
  have hname := (Tree.entry_some.mp ho).2.1
  have hcall : st.tree.unlinkat (st.guarded noRefusals) q (Utf8.encode name) =
      .ok (st.tree.set q (Utf8.encode name) none) := by
    simp [Tree.unlinkat, Storage.guarded, noRefusals, ho, himm, hnot, hkind]
  have hentry : ∀ {n}, (st.tree.set q (Utf8.encode name) none).entry q n =
      if n = Utf8.encode name then none else st.tree.entry q n := Tree.entry_set h.is_dir hname
  have hold : ∀ {n o'}, (st.tree.set q (Utf8.encode name) none).entry q n = some o' → st.tree.entry q n = some o' := by
    intro n o' ho'
    rw [hentry] at ho'
    split at ho'
    · cases ho'
    · exact ho'
  refine ⟨_, .single (.unlink (fun _ => h.only_files) hcall), fun n => ?_, ?_, ?_, ?_, ?_⟩
  · by_cases hn : n = name
    · rw [hn, Finmap.lookup_erase, fileAt_none (hentry.trans (if_pos rfl))]
    · rw [Finmap.lookup_erase_ne hn, h.shows]
      refine (fileAt_same ?_ fun _ _ => ?_).symm
      · exact hentry.trans (if_neg (Utf8.encode_inj.not.mpr hn))
      · exact ⟨rfl, rfl⟩
  · exact Tree.kindAt_set.trans h.is_dir
  · exact fun ho' => h.only_files (hold ho')
  · exact fun ho' ho'' => h.apart (hold ho') (hold ho'')
  · exact h.spare.mono fun inode hfree => ⟨hfree.1, fun n o' ho' => hfree.2 n o' (hold ho')⟩

/-- A file is made, under a new inode, and written. -/
theorem create (h : Stores st q files) (hname : IsEntryName (Utf8.encode name)) (hnone : files.lookup name = none)
    (hnot : f.immutable = false) :
    ∃ st', ReflTransGen (Change noRefusals q) st st' ∧ Stores st' q (files.insert name f) := by
  obtain ⟨inode, himm, hfresh⟩ := h.spare.nonempty
  let o : Object := { Object.file inode.ino with stat := { dev := inode.dev, ino := inode.ino, mode := f.mode } }
  have hid : o.stat.identity = inode := rfl
  have hno := h.no_entry hnone
  have hobj : st.tree.object (q ++ [Utf8.encode name]) = none := by
    rw [Tree.entry, if_pos ⟨h.is_dir, hname⟩] at hno
    exact hno
  set st' := (st.withTree (st.tree.set q (Utf8.encode name) (some o))).write inode f.bytes with hst'
  have hentry : ∀ {n}, st'.tree.entry q n = if n = Utf8.encode name then some o else st.tree.entry q n :=
    Tree.entry_set h.is_dir hname
  have hcontent : ∀ {other}, other ≠ inode → st'.content other = st.content other :=
    fun hne => Function.update_of_ne hne ..
  have hnew : ∀ {n o'}, st'.tree.entry q n = some o' → n = Utf8.encode name ∧ o' = o ∨ st.tree.entry q n = some o' := by
    intro n o' ho'
    rw [hentry] at ho'
    split at ho'
    · next hn => exact .inl ⟨hn, (Option.some.inj ho').symm⟩
    · exact .inr ho'
  have hcreate : Change noRefusals q st (st.withTree (st.tree.set q (Utf8.encode name) (some o))) :=
    .create h.is_dir hobj rfl
  refine ⟨st', .tail (.single hcreate) (.write himm), fun n => ?_, ?_, ?_, ?_, ?_⟩
  · by_cases hn : n = name
    · subst hn
      rw [Finmap.lookup_insert, fileAt_some (hentry.trans (if_pos rfl)) rfl]
      have hbytes : st'.content inode = f.bytes := Function.update_self ..
      rw [hid, hbytes, hst', Storage.write_immutable, Storage.withTree_immutable, himm, ← hnot]
    · rw [Finmap.lookup_insert_of_ne _ hn, h.shows]
      refine (@fileAt_same st st' q n (hentry.trans (if_neg (Utf8.encode_inj.not.mpr hn))) fun o' ho' => ⟨?_, rfl⟩).symm
      exact hcontent (hfresh _ o' ho')
  · exact Tree.kindAt_set.trans h.is_dir
  · intro n o' ho'
    rcases hnew ho' with ⟨-, rfl⟩ | ho'
    · rfl
    · exact h.only_files ho'
  · intro n n' o₁ o₂ ho₁ ho₂ heq
    rcases hnew ho₁ with ⟨hn, rfl⟩ | ho₁ <;> rcases hnew ho₂ with ⟨hn', rfl⟩ | ho₂
    · rw [hn, hn']
    · exact absurd heq.symm (hfresh _ _ ho₂)
    · exact absurd heq (hfresh _ _ ho₁)
    · exact h.apart ho₁ ho₂ heq
  · refine (h.spare.sdiff (Set.finite_singleton inode)).mono fun other hother => ⟨hother.1.1, fun n o' ho' => ?_⟩
    rcases hnew ho' with ⟨-, rfl⟩ | ho'
    · exact fun he => hother.2 he.symm
    · exact hother.1.2 n o' ho'

/-- A file is renamed, over another one if there is one. -/
theorem rename {old new : Str} (h : Stores st q files) (hname : IsEntryName (Utf8.encode new)) (hne : old ≠ new)
    (hfile : files.lookup old = some f) (hnot : f.immutable = false)
    (hfree : (files.lookup new).any (·.immutable) = false) :
    ∃ st', ReflTransGen (Change noRefusals q) st st' ∧ Stores st' q ((files.erase old).insert new f) := by
  obtain ⟨o, ho, hkind, hbytes, hmode, himm⟩ := h.entry hfile
  have hold := (Tree.entry_some.mp ho).2.1
  have hne' : Utf8.encode old ≠ Utf8.encode new := Utf8.encode_inj.not.mpr hne
  set t := (st.tree.set q (Utf8.encode old) none).set q (Utf8.encode new) (some o) with ht
  have hcall : st.tree.renameat (st.guarded noRefusals) q (Utf8.encode old) (Utf8.encode new) = .ok t := by
    cases htarget : files.lookup new with
    | none => simp [Tree.renameat, Storage.guarded, noRefusals, ho, h.no_entry htarget, himm, hnot, hkind, ht]
    | some g =>
      obtain ⟨o', ho', hkind', -, -, himm'⟩ := h.entry htarget
      rw [htarget] at hfree
      have hapart : o'.stat.identity ≠ o.stat.identity := fun he => hne' (h.apart ho' ho he).symm
      have hg : g.immutable = false := hfree
      simp [Tree.renameat, Storage.guarded, noRefusals, ho, ho', himm, himm', hnot, hg, hkind, hkind', hapart, ht]
  have hentry : ∀ {n}, t.entry q n = if n = Utf8.encode new then some o else if n = Utf8.encode old then none
      else st.tree.entry q n := by
    intro n
    rw [ht, Tree.entry_set (Tree.kindAt_set.trans h.is_dir) hname, Tree.entry_set h.is_dir hold]
  have hwas : ∀ {n o'}, t.entry q n = some o' → ∃ n', st.tree.entry q n' = some o' ∧
      (n = Utf8.encode new ∧ n' = Utf8.encode old ∨ n = n' ∧ n ≠ Utf8.encode new ∧ n ≠ Utf8.encode old) := by
    intro n o' ho'
    rw [hentry] at ho'
    split at ho'
    · next hn =>
      cases ho'
      exact ⟨_, ho, .inl ⟨hn, rfl⟩⟩
    · next hn =>
      split at ho'
      · cases ho'
      · next hn' => exact ⟨n, ho', .inr ⟨rfl, hn, hn'⟩⟩
  refine ⟨_, .single (.rename hname (fun _ => h.only_files) (fun _ => h.only_files) hcall), fun n => ?_, ?_, ?_, ?_, ?_⟩
  · by_cases hn : n = new
    · subst hn
      rw [Finmap.lookup_insert, fileAt_some (hentry.trans (if_pos rfl)) hkind]
      have hcontent : (st.withTree t).content o.stat.identity = f.bytes := hbytes
      rw [hcontent, hmode, Storage.withTree_immutable, himm]
    · by_cases hn' : n = old
      · rw [Finmap.lookup_insert_of_ne _ hn, hn', Finmap.lookup_erase, fileAt_none]
        rw [Storage.withTree_tree, hentry, if_neg hne', if_pos rfl]
      · rw [Finmap.lookup_insert_of_ne _ hn, Finmap.lookup_erase_ne hn', h.shows]
        refine (fileAt_same ?_ fun _ _ => ?_).symm
        · rw [Storage.withTree_tree, hentry, if_neg (Utf8.encode_inj.not.mpr hn), if_neg (Utf8.encode_inj.not.mpr hn')]
        · exact ⟨rfl, rfl⟩
  · exact Tree.kindAt_set.trans (Tree.kindAt_set.trans h.is_dir)
  · intro n o' ho'
    obtain ⟨n', ho', -⟩ := hwas ho'
    exact h.only_files ho'
  · intro n n' o₁ o₂ ho₁ ho₂ heq
    obtain ⟨m, ho₁, hm⟩ := hwas ho₁
    obtain ⟨m', ho₂, hm'⟩ := hwas ho₂
    have hsame : m = m' := h.apart ho₁ ho₂ heq
    rcases hm with ⟨rfl, rfl⟩ | ⟨rfl, -, hnold⟩ <;> rcases hm' with ⟨rfl, rfl⟩ | ⟨rfl, -, hnold'⟩
    · rfl
    · exact absurd hsame.symm hnold'
    · exact absurd hsame hnold
    · exact hsame
  · refine h.spare.mono fun inode hinode => ⟨hinode.1, fun n o' ho' => ?_⟩
    obtain ⟨n', ho', -⟩ := hwas ho'
    exact hinode.2 n' o' ho'

/-- A file is made immutable. -/
theorem lock (h : Stores st q files) (hfile : files.lookup name = some f) :
    ∃ st', ReflTransGen (Change noRefusals q) st st' ∧
      Stores st' q (files.insert name { f with immutable := true }) := by
  obtain ⟨o, ho, hkind, hbytes, hmode, -⟩ := h.entry hfile
  set st' := st.setFlags o.stat.identity (withImmutableBit (st.flags o.stat.identity) true) with hst'
  have hentry : ∀ {n}, st'.tree.entry q n = st.tree.entry q n := rfl
  refine ⟨st', .single .lock, fun n => ?_, h.is_dir, h.only_files, h.apart, ?_⟩
  · by_cases hn : n = name
    · subst hn
      rw [Finmap.lookup_insert, fileAt_some (hentry.trans ho) hkind, hst', Storage.setFlags_immutable, if_pos rfl,
        isImmutable_with, hmode, ← hbytes]
      rfl
    · rw [Finmap.lookup_insert_of_ne _ hn, h.shows]
      refine (fileAt_same ?_ fun o' ho' => ?_).symm
      · exact hentry
      have hne : o'.stat.identity ≠ o.stat.identity := fun he => hn (Utf8.encode_inj.mp (h.apart ho' ho he))
      exact ⟨rfl, by rw [Storage.setFlags_immutable, if_neg hne]⟩
  · refine h.spare.mono fun inode hinode => ⟨?_, hinode.2⟩
    rw [Storage.setFlags_immutable, if_neg (hinode.2 _ o ho).symm]
    exact hinode.1

/-- A step of an update is carried out. -/
theorem realize {files' : Dir} (h : Stores st q files) (hstep : DirStep files files') :
    ∃ st', ReflTransGen (Change noRefusals q) st st' ∧ Stores st' q files' := by
  cases hstep with
  | create hname hnone hnot => exact h.create hname hnone hnot
  | remove hfile hnot => exact h.remove hfile hnot
  | rename hname hne hfile hnot hfree => exact h.rename hname hne hfile hnot hfree
  | lock hfile => exact h.lock hfile

theorem realizes {files' : Dir} (h : Stores st q files) (hsteps : DirSteps files files') :
    ∃ st', ReflTransGen (Change noRefusals q) st st' ∧ Stores st' q files' := by
  induction hsteps with
  | refl => exact ⟨st, .refl, h⟩
  | tail _ hstep ih =>
    obtain ⟨st₁, hchanges, h₁⟩ := ih
    obtain ⟨st₂, hchanges', h₂⟩ := h₁.realize hstep
    exact ⟨st₂, hchanges.trans hchanges', h₂⟩

end Stores

/-- **What an attempt leaves of the files it finds, calls leave of the directory
that shows them**, where the next attempt finds them. -/
theorem runWithClient_realized {Key : Type} {paths : InstallPaths} {u : Updater Key (List Bytes)} {a : Attempt Key}
    {m : Machine} {st : Storage} {p : Str} {q : List Bytes} {files : Dir} (h : Stores st q files)
    (hrefusals : m.refusals = noRefusals) (hnames : EntryNames a.faults u.dest)
    (hpath : u.dest.policyPath = paths.policyPath) (hfs : u.fs = st.tree.fs)
    (hcheck : checkPath st.tree.fs u.dest.parent .positional [] = .ok ⟨p, q⟩) :
    ∃ st', Meanwhile Key paths st st' ∧ Stores st' q (runWithClient u a files).2 ∧
      checkPath st'.tree.fs u.dest.parent .positional [] = .ok ⟨p, q⟩ := by
  obtain ⟨st', hchanges, h'⟩ := h.realizes (runWithClient_steps hnames)
  rw [← hrefusals] at hchanges
  have hstep : Meanwhile Key paths st st' := .update hpath hfs hcheck h.shows hchanges h'.shows
  exact ⟨st', hstep, h', (meanwhile_keeps hstep).ways.checkPath hcheck h.is_dir⟩

end SecureSudoers
