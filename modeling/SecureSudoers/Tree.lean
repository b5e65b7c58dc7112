/-
File systems given by what is at each location, and the calls that change the
entries of a directory as the installer makes them, on entries that are no
directories. Hard links are entries with the same object.
-/
import SecureSudoers.MountNamespace
import SecureSudoers.Binding

namespace SecureSudoers

/-- What is at each location. -/
structure Tree where
  object : List Bytes → Option Object
  root_dir : ∃ o, object [] = some o ∧ o.kind = .dir

namespace Tree

def kindAt (t : Tree) (d : List Bytes) : Kind := (t.object d).elim .file (·.kind)

/-- The object a directory's entry stands for. -/
def entry (t : Tree) (d : List Bytes) (n : Bytes) : Option Object :=
  if t.kindAt d = .dir ∧ IsEntryName n then t.object (d ++ [n]) else none

/-- The entry of a directory, where there is one. -/
def lookupAt (t : Tree) (d : List Bytes) (n : Bytes) : Option (List Bytes) := (t.entry d n).map fun _ => d ++ [n]

theorem entry_some {t : Tree} {d : List Bytes} {n : Bytes} {o : Object} :
    t.entry d n = some o ↔ t.kindAt d = .dir ∧ IsEntryName n ∧ t.object (d ++ [n]) = some o := by
  unfold entry
  by_cases h : t.kindAt d = .dir ∧ IsEntryName n
  · rw [if_pos h]
    exact ⟨fun ho => ⟨h.1, h.2, ho⟩, fun ho => ho.2.2⟩
  · rw [if_neg h]
    exact iff_of_false (by simp) fun ho => h ⟨ho.1, ho.2.1⟩

theorem lookupAt_some {t : Tree} {d e : List Bytes} {n : Bytes} :
    t.lookupAt d n = some e ↔ (∃ o, t.entry d n = some o) ∧ e = d ++ [n] := by
  unfold lookupAt
  cases t.entry d n with
  | none => simp
  | some o => simp [eq_comm]

theorem kindAt_root {t : Tree} : t.kindAt [] = .dir := by
  obtain ⟨o, ho, hk⟩ := t.root_dir
  rw [kindAt, ho]
  exact hk

theorem targetLength_kindAt {t : Tree} {d : List Bytes} : (t.kindAt d).targetLength < PATH_MAX := by
  unfold kindAt
  cases t.object d with
  | none => decide
  | some o => exact o.target_length

theorem lookupAt_ok {t : Tree} {d e : List Bytes} {n : Bytes} (h : t.lookupAt d n = some e) :
    t.kindAt d = .dir ∧ IsEntryName n ∧ e = d ++ [n] := by
  obtain ⟨⟨o, ho⟩, he⟩ := lookupAt_some.mp h
  exact ⟨(entry_some.mp ho).1, (entry_some.mp ho).2.1, he⟩

/-- The file system of a tree. -/
def fs (t : Tree) : FileSystem (List Bytes) :=
  .byLocation t.kindAt (fun d => (t.object d).elim {} (·.stat)) t.lookupAt kindAt_root lookupAt_ok
    fun _ => targetLength_kindAt

/-- One entry changed. -/
def set (t : Tree) (d : List Bytes) (n : Bytes) (o : Option Object) : Tree where
  object q := if q = d ++ [n] then o else t.object q
  root_dir := by
    obtain ⟨o', ho, hk⟩ := t.root_dir
    exact ⟨o', (if_neg (by simp)).trans ho, hk⟩

/-- A tree given by its locations, the first that matches. -/
def ofList (entries : List (List Str × Object)) : Tree where
  object q := if q = [] then some .directory else (entries.find? fun e => e.1.map Utf8.encode == q).map Prod.snd
  root_dir := ⟨.directory, rfl, rfl⟩

end Tree

/-! ## The system calls -/

/-- A call on the entries of a directory. -/
inductive DirCall where
  | fstatat (dir : List Bytes) (name : Bytes)
  | unlinkat (dir : List Bytes) (name : Bytes)
  | renameat (dir : List Bytes) (old new : Bytes)
  | linkat (srcDir : List Bytes) (src : Bytes) (dir : List Bytes) (name : Bytes)
  deriving DecidableEq, Repr

/-- The calls the kernel refuses for reasons of its own. -/
abbrev Refusals := Tree → DirCall → Option Errno

def EXDEV : Errno := .other 18
def EISDIR : Errno := .other 21

namespace Tree

variable (k : Refusals) (t : Tree)

/-- `fstatat` with `AT_SYMLINK_NOFOLLOW`. -/
def fstatat (dir : List Bytes) (name : Bytes) : Except Errno Object :=
  match k t (.fstatat dir name) with
  | some e => .error e
  | none =>
    match t.entry dir name with
    | some o => .ok o
    | none => .error .ENOENT

def unlinkat (dir : List Bytes) (name : Bytes) : Except Errno Tree :=
  match k t (.unlinkat dir name) with
  | some e => .error e
  | none =>
    match t.entry dir name with
    | none => .error .ENOENT
    | some o => if o.kind = .dir then .error EISDIR else .ok (t.set dir name none)

/-- `renameat` within a directory, of an entry that is no directory. What is
there under the new name is replaced, but for a link of the same file. -/
def renameat (dir : List Bytes) (old new : Bytes) : Except Errno Tree :=
  match k t (.renameat dir old new) with
  | some e => .error e
  | none =>
    match t.entry dir old with
    | none => .error .ENOENT
    | some o =>
      if o.kind = .dir then .error EISDIR
      else match t.entry dir new with
        | none => .ok ((t.set dir old none).set dir new (some o))
        | some o' =>
          if o'.kind = .dir then .error EISDIR
          else if o'.stat.identity = o.stat.identity then .ok t
          else .ok ((t.set dir old none).set dir new (some o))

def linkat (srcDir : List Bytes) (src : Bytes) (dir : List Bytes) (name : Bytes) : Except Errno Tree :=
  match k t (.linkat srcDir src dir name) with
  | some e => .error e
  | none =>
    match t.entry srcDir src with
    | none => .error .ENOENT
    | some o =>
      if o.kind = .dir then .error EPERM
      else if (t.entry dir name).isSome then .error .EEXIST
      else if t.kindAt dir ≠ .dir then .error .ENOTDIR
      else if (t.fs.stat dir).dev ≠ o.stat.dev then .error EXDEV
      else .ok (t.set dir name (some o))

variable {k : Refusals} {t t' : Tree}

theorem object_set {d q : List Bytes} {n : Bytes} {o : Option Object} :
    (t.set d n o).object q = if q = d ++ [n] then o else t.object q := rfl

/-- What a location holds, but the root, is one of those given. -/
theorem mem_of_object_ofList {entries : List (List Str × Object)} {q : List Bytes} {o : Object} (hq : q ≠ [])
    (h : (ofList entries).object q = some o) : ∃ e ∈ entries, e.1.map Utf8.encode = q ∧ e.2 = o := by
  have hobj : (ofList entries).object q = (entries.find? fun e => e.1.map Utf8.encode == q).map Prod.snd := if_neg hq
  rw [hobj] at h
  obtain ⟨e, he, rfl⟩ := Option.map_eq_some_iff.mp h
  exact ⟨e, List.mem_of_find?_eq_some he, by simpa using List.find?_some he, rfl⟩

theorem kindAt_set {q : List Bytes} {n : Bytes} {x : Option Object} :
    (t.set q n x).kindAt q = t.kindAt q := by
  rw [kindAt, object_set, if_neg (by simp), ← kindAt]

theorem entry_set {q : List Bytes} {n n' : Bytes} {x : Option Object} (hdir : t.kindAt q = .dir)
    (hname : IsEntryName n) : (t.set q n x).entry q n' = if n' = n then x else t.entry q n' := by
  have hdir' : (t.set q n x).kindAt q = .dir := kindAt_set.trans hdir
  by_cases hn : n' = n
  · subst hn
    rw [entry, if_pos ⟨hdir', hname⟩, object_set, if_pos rfl, if_pos rfl]
  · have hother : q ++ [n'] ≠ q ++ [n] := fun he => hn (List.cons.inj (List.append_cancel_left he)).1
    rw [entry, entry, hdir, hdir', object_set, if_neg hother, if_neg hn]

theorem fstatat_ok {dir : List Bytes} {name : Bytes} {o : Object} (h : t.fstatat k dir name = .ok o) :
    t.entry dir name = some o := by
  unfold fstatat at h
  split at h
  · cases h
  · split at h
    · next ho =>
      cases h
      exact ho
    · cases h

theorem unlinkat_ok {dir : List Bytes} {name : Bytes} (h : t.unlinkat k dir name = .ok t') :
    (∃ o, t.entry dir name = some o ∧ o.kind ≠ .dir) ∧ t' = t.set dir name none := by
  unfold unlinkat at h
  split at h
  · cases h
  · split at h
    · cases h
    · next o ho =>
      split at h
      · cases h
      · next hk =>
        cases h
        exact ⟨⟨o, ho, hk⟩, rfl⟩

theorem renameat_ok {dir : List Bytes} {old new : Bytes} (h : t.renameat k dir old new = .ok t') :
    (∀ o, t.entry dir new = some o → o.kind ≠ .dir) ∧ ∃ o, t.entry dir old = some o ∧ o.kind ≠ .dir ∧
      ((t' = t ∧ ∃ o', t.entry dir new = some o' ∧ o'.stat.identity = o.stat.identity) ∨
        t' = (t.set dir old none).set dir new (some o)) := by
  unfold renameat at h
  split at h
  · cases h
  · split at h
    · cases h
    · next o ho =>
      split at h
      · cases h
      · next hk =>
        split at h
        · next hnew =>
          cases h
          exact ⟨fun o' ho' => by simp [hnew] at ho', o, ho, hk, .inr rfl⟩
        · next o' ho' =>
          split at h
          · cases h
          · next hk' =>
            have hnew : ∀ o, t.entry dir new = some o → o.kind ≠ .dir := fun o ho =>
              Option.some.inj (ho'.symm.trans ho) ▸ hk'
            split at h
            · next hid =>
              cases h
              exact ⟨hnew, o, ho, hk, .inl ⟨rfl, o', ho', hid⟩⟩
            · cases h
              exact ⟨hnew, o, ho, hk, .inr rfl⟩

theorem linkat_ok {srcDir dir : List Bytes} {src name : Bytes} (h : t.linkat k srcDir src dir name = .ok t') :
    ∃ o, t.entry srcDir src = some o ∧ o.kind ≠ .dir ∧ t.entry dir name = none ∧ t.kindAt dir = .dir ∧
      t' = t.set dir name (some o) := by
  unfold linkat at h
  split at h
  · cases h
  · split at h
    · cases h
    · next o ho =>
      split at h
      · cases h
      · next hk =>
        split at h
        · cases h
        · next hnone =>
          split at h
          · cases h
          · next hdir =>
            split at h
            · cases h
            · cases h
              exact ⟨o, ho, hk, by simpa using hnone, not_not.mp hdir, rfl⟩

/-! ## Directories that stay -/

theorem kindAt_dir {q : List Bytes} : t.kindAt q = .dir ↔ ∃ o, t.object q = some o ∧ o.kind = .dir := by
  unfold kindAt
  cases t.object q with
  | none => simp
  | some o => simp

/-- Every directory of `t` is one of `t'`. -/
def KeepsDirs (t t' : Tree) : Prop := ∀ {q o}, t.object q = some o → o.kind = .dir → t'.object q = some o

theorem KeepsDirs.kindAt (h : KeepsDirs t t') {q : List Bytes} (hq : t.kindAt q = .dir) : t'.kindAt q = .dir := by
  obtain ⟨o, ho, hk⟩ := kindAt_dir.mp hq
  exact kindAt_dir.mpr ⟨o, h ho hk, hk⟩

/-- A way to a directory over no link stays. -/
theorem KeepsDirs.resolves (h : KeepsDirs t t') {cur e : List Bytes} {segs : List Segment} {targets : List Bytes}
    {visited : List (List Bytes)} (hr : Resolves t.fs cur segs targets visited e) (hlinks : targets = [])
    (he : t.kindAt e = .dir) : Resolves t'.fs cur segs targets visited e ∧ t.kindAt cur = .dir := by
  induction hr with
  | done => exact ⟨.done, he⟩
  | parent hk _ ih => exact ⟨.parent (h.kindAt hk) (ih hlinks he).1, hk⟩
  | @name cur d e n rest _ _ hl _ _ ih =>
    obtain ⟨hrest, hd⟩ := ih hlinks he
    obtain ⟨⟨o, ho⟩, hdef⟩ := lookupAt_some.mp hl
    obtain ⟨hcur, hn, hobj⟩ := entry_some.mp ho
    obtain ⟨o', ho', hk'⟩ := kindAt_dir.mp hd
    have hl' : t'.lookupAt cur n = some d :=
      lookupAt_some.mpr ⟨⟨o', entry_some.mpr ⟨h.kindAt hcur, hn, hdef ▸ h ho' hk'⟩⟩, hdef⟩
    have hs' : t'.fs.isSymlink d = false := by
      have hk : t'.fs.kind d = .dir := h.kindAt hd
      rw [FileSystem.isSymlink, hk]
    exact ⟨.name hl' hs' hrest, hcur⟩
  | link => cases hlinks

end Tree
end SecureSudoers
