/-
File systems with what their inodes hold: flags and octets. A flag belongs to
the inode, so that all hard links share it, and the kernel renames, replaces or
removes no entry of an immutable one.

`Change` are the calls that change a directory and its files one at a time.
Whatever their order, what is no file or is immutable stays where it is
(`changes_keep`), and then `check_path` leads where it led.
-/
import Mathlib.Logic.Relation
import SecureSudoers.Installer
import SecureSudoers.KernelPath

namespace SecureSudoers

/-! ## Ways that stay -/

namespace Tree

/-- What is no file in `t` is there in `t'`. -/
def KeepsWays (t t' : Tree) : Prop := ∀ ⦃q o⦄, t.object q = some o → o.kind ≠ .file → t'.object q = some o

variable {t t' t'' : Tree}

theorem KeepsWays.refl : t.KeepsWays t := fun _ _ h _ => h

theorem KeepsWays.trans (h : t.KeepsWays t') (h' : t'.KeepsWays t'') : t.KeepsWays t'' :=
  fun _ _ ho hk => h' (h ho hk) hk

theorem KeepsWays.kindAt (h : t.KeepsWays t') {q : List Bytes} (hq : t.kindAt q ≠ .file) : t'.kindAt q = t.kindAt q := by
  cases ho : t.object q with
  | none =>
    rw [Tree.kindAt, ho] at hq
    exact absurd rfl hq
  | some o =>
    have hk : o.kind ≠ .file := by simpa [Tree.kindAt, ho] using hq
    rw [Tree.kindAt, Tree.kindAt, ho, h ho hk]

theorem KeepsWays.lookupAt (h : t.KeepsWays t') {cur d : List Bytes} {n : Bytes} (hl : t.lookupAt cur n = some d)
    (hd : t.kindAt d ≠ .file) : t'.lookupAt cur n = some d := by
  obtain ⟨⟨o, ho⟩, rfl⟩ := lookupAt_some.mp hl
  obtain ⟨hcur, hn, hobj⟩ := entry_some.mp ho
  have hcur' : t'.kindAt cur = .dir := (h.kindAt (by simp [hcur])).trans hcur
  have hk : o.kind ≠ .file := by simpa [Tree.kindAt, hobj] using hd
  exact lookupAt_some.mpr ⟨⟨o, entry_some.mpr ⟨hcur', hn, h hobj hk⟩⟩, rfl⟩

/-- A way to a directory stays, links included. -/
theorem KeepsWays.resolves (h : t.KeepsWays t') {cur e : List Bytes} {segs : List Segment} {targets : List Bytes}
    {visited : List (List Bytes)} (hr : Resolves t.fs cur segs targets visited e) (he : t.kindAt e = .dir) :
    Resolves t'.fs cur segs targets visited e ∧ t.kindAt cur = .dir := by
  induction hr with
  | done => exact ⟨.done, he⟩
  | @parent cur _ _ _ _ hk _ ih =>
    have hk : t.kindAt cur = .dir := hk
    exact ⟨.parent ((h.kindAt (by simp [hk])).trans hk) (ih he).1, hk⟩
  | @name cur d e n rest _ _ hl _ _ ih =>
    obtain ⟨hrest, hd⟩ := ih he
    have hd' : t'.fs.kind d = .dir := (h.kindAt (by simp [hd])).trans hd
    have hs : t'.fs.isSymlink d = false := by
      rw [FileSystem.isSymlink, hd']
    exact ⟨.name (h.lookupAt hl (by simp [hd])) hs hrest, (lookupAt_ok hl).1⟩
  | @link cur d e n target rest _ _ hl hk _ ih =>
    have hk' : t.kindAt d = .symlink target := hk
    have hd' : t'.fs.kind d = .symlink target := (h.kindAt (by simp [hk'])).trans hk'
    exact ⟨.link (h.lookupAt hl (by simp [hk'])) hd' (ih he).1, (lookupAt_ok hl).1⟩

/-- `check_path` leads to a directory where it led to it. -/
theorem KeepsWays.checkPath (h : t.KeepsWays t') {path p : Str} {context : ValidationContext} {dir : List Bytes}
    (hcheck : checkPath t.fs path context [] = .ok ⟨p, dir⟩) (hdir : t.kindAt dir = .dir) :
    SecureSudoers.checkPath t'.fs path context [] = .ok ⟨p, dir⟩ := by
  obtain ⟨habs, targets, visited, hr, hlen, htext, -, hp⟩ := checkPath_accepts.mp hcheck
  refine checkPath_accepts.mpr ⟨habs, targets, visited, (h.resolves hr hdir).1, hlen, htext, ?_, hp⟩
  simp [Unblocked]

end Tree

/-! ## Inodes -/

abbrev InodeFlags := BitVec 32

def LINUX_FS_IMMUTABLE_FL : InodeFlags := 0x10

def withImmutableBit (flags : InodeFlags) (setImmutable : Bool) : InodeFlags :=
  if setImmutable then flags ||| LINUX_FS_IMMUTABLE_FL else flags &&& ~~~LINUX_FS_IMMUTABLE_FL

def isImmutable (flags : InodeFlags) : Bool := flags &&& LINUX_FS_IMMUTABLE_FL != 0

theorem isImmutable_with {flags : InodeFlags} {setImmutable : Bool} :
    isImmutable (withImmutableBit flags setImmutable) = setImmutable := by
  cases setImmutable with
  | true =>
    have hbit : (flags ||| LINUX_FS_IMMUTABLE_FL) &&& LINUX_FS_IMMUTABLE_FL = LINUX_FS_IMMUTABLE_FL := by
      ext i
      simp
      grind
    rw [isImmutable, withImmutableBit, if_pos rfl, hbit]
    decide
  | false =>
    have hbit : (flags &&& ~~~LINUX_FS_IMMUTABLE_FL) &&& LINUX_FS_IMMUTABLE_FL = 0 := by
      ext i
      simp
    rw [isImmutable, withImmutableBit, if_neg (by simp), hbit]
    decide

/-- A tree and what its inodes hold; what a number holds that no file has is of no meaning. -/
structure Storage where
  tree : Tree
  flags : ExecutableIdentity → InodeFlags
  content : ExecutableIdentity → Bytes

namespace Storage

def immutable (st : Storage) (inode : ExecutableIdentity) : Bool := isImmutable (st.flags inode)

def setFlags (st : Storage) (inode : ExecutableIdentity) (flags : InodeFlags) : Storage :=
  { st with flags := Function.update st.flags inode flags }

def write (st : Storage) (inode : ExecutableIdentity) (bytes : Bytes) : Storage :=
  { st with content := Function.update st.content inode bytes }

def withTree (st : Storage) (tree : Tree) : Storage := { st with tree }

variable {st st' st'' : Storage} {inode other : ExecutableIdentity} {flags : InodeFlags}

@[simp] theorem setFlags_tree : (st.setFlags inode flags).tree = st.tree := rfl

@[simp] theorem write_tree {bytes : Bytes} : (st.write inode bytes).tree = st.tree := rfl

@[simp] theorem write_immutable {bytes : Bytes} : (st.write inode bytes).immutable other = st.immutable other := rfl

@[simp] theorem withTree_tree {t : Tree} : (st.withTree t).tree = t := rfl

@[simp] theorem withTree_immutable {t : Tree} : (st.withTree t).immutable other = st.immutable other := rfl

theorem setFlags_immutable : (st.setFlags inode flags).immutable other =
    if other = inode then isImmutable flags else st.immutable other := by
  rw [immutable, setFlags]
  dsimp only
  by_cases h : other = inode
  · subst h
    rw [if_pos rfl, Function.update_self]
  · rw [if_neg h, Function.update_of_ne h, immutable]

/-- The kernel's refusals, of which the first is not to move or remove an entry of an immutable inode. -/
def guarded (st : Storage) (k : Refusals) : Refusals := fun t call =>
  let fixed (dir : List Bytes) (name : Bytes) : Bool := (t.entry dir name).any fun o => st.immutable o.stat.identity
  let same (dir : List Bytes) (old new : Bytes) : Bool :=
    (t.entry dir old).any fun o => (t.entry dir new).any fun o' => o.stat.identity == o'.stat.identity
  match call with
  | .unlinkat dir name => if fixed dir name then some EPERM else k t call
  | .renameat dir old new =>
    if !same dir old new && (fixed dir old || fixed dir new) then some EPERM else k t call
  | _ => k t call

end Storage

/-! ## Changes -/

/-- The calls that change a directory and its files. What is renamed, replaced or
removed is a file: a caller has opened it with `O_NOFOLLOW`, or has made it. -/
inductive Change (k : Refusals) (dir : List Bytes) (st : Storage) : Storage → Prop where
  | create {name : Bytes} {o : Object} : st.tree.kindAt dir = .dir → st.tree.object (dir ++ [name]) = none →
      o.kind = .file → Change k dir st (st.withTree (st.tree.set dir name (some o)))
  | write {inode : ExecutableIdentity} {bytes : Bytes} : st.immutable inode = false →
      Change k dir st (st.write inode bytes)
  | chmod {name : Bytes} {o : Object} {mode : Nat} : st.tree.entry dir name = some o → o.kind = .file →
      st.immutable o.stat.identity = false →
      Change k dir st (st.withTree (st.tree.set dir name (some { o with stat := { o.stat with mode } })))
  | rename {old new : Bytes} {t : Tree} : IsEntryName new → (∀ o, st.tree.entry dir old = some o → o.kind = .file) →
      (∀ o, st.tree.entry dir new = some o → o.kind = .file) →
      st.tree.renameat (st.guarded k) dir old new = .ok t → Change k dir st (st.withTree t)
  | unlink {name : Bytes} {t : Tree} : (∀ o, st.tree.entry dir name = some o → o.kind = .file) →
      st.tree.unlinkat (st.guarded k) dir name = .ok t → Change k dir st (st.withTree t)
  | lock {inode : ExecutableIdentity} :
      Change k dir st (st.setFlags inode (withImmutableBit (st.flags inode) true))

/-- What is no file or is immutable stays where it is, and nothing loses the flag. -/
structure Keeps (st st' : Storage) : Prop where
  object {q : List Bytes} {o : Object} : st.tree.object q = some o →
    (o.kind = .file → st.immutable o.stat.identity = true) → st'.tree.object q = some o
  immutable {inode : ExecutableIdentity} : st.immutable inode = true → st'.immutable inode = true

variable {st st' st'' : Storage} {inode : ExecutableIdentity}

namespace Keeps

theorem refl : Keeps st st := ⟨fun h _ => h, fun h => h⟩

theorem trans (h : Keeps st st') (h' : Keeps st' st'') : Keeps st st'' where
  object ho hk := h'.object (h.object ho hk) fun hfile => h.immutable (hk hfile)
  immutable hi := h'.immutable (h.immutable hi)

theorem ways (h : Keeps st st') : st.tree.KeepsWays st'.tree :=
  fun _ _ ho hk => h.object ho fun hfile => absurd hfile hk

/-- One entry is changed, and it was a file that is not immutable, if anything. -/
theorem set {dir : List Bytes} {name : Bytes} {o : Option Object}
    (h : ∀ o', st.tree.object (dir ++ [name]) = some o' → o'.kind = .file ∧ st.immutable o'.stat.identity = false) :
    Keeps st (st.withTree (st.tree.set dir name o)) where
  object {q o'} ho hk := by
    have hne : q ≠ dir ++ [name] := by
      intro he
      subst he
      obtain ⟨hfile, hnot⟩ := h o' ho
      rw [hk hfile] at hnot
      cases hnot
    exact (if_neg hne).trans ho
  immutable hi := hi

theorem lock : Keeps st (st.setFlags inode (withImmutableBit (st.flags inode) true)) where
  object ho _ := ho
  immutable {other} hi := by
    rw [Storage.setFlags_immutable, isImmutable_with]
    split
    · rfl
    · exact hi

end Keeps

/-- A renaming that the kernel carries out changes nothing, or moves an entry
over another one, neither of them immutable. -/
theorem renameat_guarded {k : Refusals} {dir : List Bytes} {old new : Bytes} {t : Tree}
    (h : st.tree.renameat (st.guarded k) dir old new = .ok t) : t = st.tree ∨
      ∃ o, st.tree.entry dir old = some o ∧ st.immutable o.stat.identity = false ∧
        (∀ o', st.tree.entry dir new = some o' → st.immutable o'.stat.identity = false) ∧
        t = (st.tree.set dir old none).set dir new (some o) := by
  unfold Tree.renameat at h
  split at h
  · cases h
  · next hallowed =>
    unfold Storage.guarded at hallowed
    cases ho : st.tree.entry dir old with
    | none => simp [ho] at h
    | some o =>
      simp only [ho] at h hallowed
      split at h
      · cases h
      · cases hn : st.tree.entry dir new with
        | none =>
          simp only [hn] at h hallowed
          cases h
          refine .inr ⟨o, rfl, Bool.eq_false_iff.mpr fun hi => ?_, by simp, rfl⟩
          simp [hi] at hallowed
        | some o' =>
          simp only [hn] at h hallowed
          split at h
          · cases h
          · split at h
            · cases h
              exact .inl rfl
            · next hid =>
              cases h
              have hne : (o.stat.identity == o'.stat.identity) = false := beq_false_of_ne (Ne.symm hid)
              refine .inr ⟨o, rfl, Bool.eq_false_iff.mpr fun hi => ?_, fun o'' ho'' => ?_, rfl⟩
              · simp [hi, hne] at hallowed
              · cases ho''
                refine Bool.eq_false_iff.mpr fun hi => ?_
                simp [hi, hne] at hallowed

theorem unlinkat_guarded {k : Refusals} {dir : List Bytes} {name : Bytes} {t : Tree}
    (h : st.tree.unlinkat (st.guarded k) dir name = .ok t) : t = st.tree.set dir name none ∧
      ∃ o, st.tree.entry dir name = some o ∧ st.immutable o.stat.identity = false := by
  obtain ⟨⟨o, ho, -⟩, ht⟩ := Tree.unlinkat_ok h
  refine ⟨ht, o, ho, Bool.eq_false_iff.mpr fun hi => ?_⟩
  simp [Tree.unlinkat, Storage.guarded, ho, hi] at h

/-- One call keeps them. -/
theorem change_keeps {k : Refusals} {dir : List Bytes} (h : Change k dir st st') : Keeps st st' := by
  cases h with
  | create _ hnone _ =>
    refine .set fun o' ho' => ?_
    rw [hnone] at ho'
    cases ho'
  | write _ => exact ⟨fun ho _ => ho, fun hi => hi⟩
  | chmod ho hfile hnot =>
    refine .set fun o' ho' => ?_
    rw [(Tree.entry_some.mp ho).2.2] at ho'
    cases ho'
    exact ⟨hfile, hnot⟩
  | @rename old new t hname hold hnew hren =>
    obtain rfl | ⟨o, ho, hnot, hnot', rfl⟩ := renameat_guarded hren
    · exact ⟨fun ho _ => ho, fun hi => hi⟩
    · have hobj := (Tree.entry_some.mp ho).2.2
      have hfirst : Keeps st (st.withTree (st.tree.set dir old none)) := by
        refine .set fun o' ho' => ?_
        rw [hobj] at ho'
        cases ho'
        exact ⟨hold o ho, hnot⟩
      refine hfirst.trans (.set fun o' ho' => ?_)
      -- what is under the new name was there before, as the old name is empty now
      have hne : dir ++ [new] ≠ dir ++ [old] := fun he => by simp [Tree.object_set, he] at ho'
      have hobj' : st.tree.object (dir ++ [new]) = some o' := (if_neg hne).symm.trans ho'
      have hentry := Tree.entry_some.mpr ⟨(Tree.entry_some.mp ho).1, hname, hobj'⟩
      exact ⟨hnew o' hentry, hnot' o' hentry⟩
  | unlink hfile hun =>
    obtain ⟨rfl, o, ho, hnot⟩ := unlinkat_guarded hun
    refine .set fun o' ho' => ?_
    rw [(Tree.entry_some.mp ho).2.2] at ho'
    cases ho'
    exact ⟨hfile o ho, hnot⟩
  | lock => exact .lock

/-- **Any number of calls keep them.** -/
theorem changes_keep {k : Refusals} {dir : List Bytes} (h : Relation.ReflTransGen (Change k dir) st st') :
    Keeps st st' := by
  induction h with
  | refl => exact .refl
  | tail _ hstep ih => exact ih.trans (change_keeps hstep)

end SecureSudoers
