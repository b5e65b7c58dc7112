/-
The kernel's side of the isolation: the mount namespace the process is in, the
volumes it mounts, and `mount(2)` as the program calls it. Volumes are numbered;
a tmpfs gets a new one, empty but for its root. A volume's number is its
`st_dev`.

The file system of a namespace (`MountNs.fs`) has a location for each of its
entries: what a location shows is what the namespace's lookup reaches there. What
is mounted on the root is not entered, here not by a `..` at the root either.
`/dev/null` is taken to be no symlink and below none.
-/
import SecureSudoers.Lib.Mounts
import SecureSudoers.PathGuard

namespace SecureSudoers

open Mounts (Place View Mount Namespace)

/-- An object of a volume; a device, a FIFO or a socket is `special`. -/
structure Object where
  kind : Kind
  stat : Stat := {}
  special : Bool := false
  target_length : kind.targetLength < PATH_MAX

def Object.directory : Object := { kind := .dir, target_length := by decide }

def Object.file (ino : Nat) : Object := { kind := .file, stat := { ino }, target_length := by decide }

/-- What the volumes hold. -/
structure Disk where
  objects : Nat → List Bytes → Option Object
  tree {v : Nat} {p : List Bytes} {n : Bytes} {o : Object} :
    objects v (p ++ [n]) = some o → ∃ d, objects v p = some d ∧ d.kind = .dir

/-- What a mount has been made for. -/
inductive Purpose where
  | host
  | privateMount
  | blockedPath
  | readonlyMount
  | pinnedParent
  | pinnedPath
  deriving DecidableEq, Repr

/-- A mount namespace and its volumes, of which `volumes` are in use. -/
structure MountNs where
  mounts : Namespace Nat Bytes Purpose
  disk : Disk
  volumes : Nat
  root_bounded : mounts.root.view.place.vol < volumes
  bounded : ∀ m ∈ mounts.later, m.view.place.vol < volumes
  unused {v : Nat} {p : List Bytes} : volumes ≤ v → disk.objects v p = none

namespace Disk

/-- A new object, below a directory if anywhere; what is there stays. -/
def put (disk : Disk) (v : Nat) (p : List Bytes) (o : Object)
    (h : ∀ q n, p = q ++ [n] → ∃ d, disk.objects v q = some d ∧ d.kind = .dir) : Disk where
  objects w q := (disk.objects w q).or (if w = v ∧ q = p then some o else none)
  tree {w q n o'} ho := by
    have keep : ∀ {d}, disk.objects w q = some d →
        (disk.objects w q).or (if w = v ∧ q = p then some o else none) = some d := by
      intro d hd
      rw [hd]
      rfl
    rcases Option.or_eq_some_iff.mp ho with hold | ⟨-, hnew⟩
    · obtain ⟨d, hd, hk⟩ := disk.tree hold
      exact ⟨d, keep hd, hk⟩
    · split at hnew
      · next he =>
        obtain ⟨rfl, he⟩ := he
        obtain ⟨d, hd, hk⟩ := h q n he.symm
        exact ⟨d, keep hd, hk⟩
      · cases hnew

/-- A new entry of a directory. -/
def addEntry (disk : Disk) (v : Nat) (q : List Bytes) (n : Bytes) (o : Object)
    (h : ∃ d, disk.objects v q = some d ∧ d.kind = .dir) : Disk :=
  disk.put v (q ++ [n]) o fun _ _ he => (List.append_inj' he rfl).1 ▸ h

def empty : Disk := ⟨fun _ _ => none, fun h => nomatch h⟩

end Disk

namespace MountNs

/-- What looking up a location reaches. -/
def look (st : MountNs) (d : List Bytes) : View Nat Bytes := st.mounts.look d

def object (st : MountNs) (d : List Bytes) : Option Object :=
  st.disk.objects (st.look d).place.vol (st.look d).place.path

def kindAt (st : MountNs) (d : List Bytes) : Kind := if d = [] then .dir else (st.object d).elim .file (·.kind)

theorem targetLength_kindAt {st : MountNs} {d : List Bytes} : (st.kindAt d).targetLength < PATH_MAX := by
  unfold kindAt
  split
  · decide
  · cases st.object d with
    | none => decide
    | some o => exact o.target_length

/-- The entry of a directory, where there is one. -/
def lookupAt (st : MountNs) (d : List Bytes) (n : Bytes) : Option (List Bytes) :=
  if st.kindAt d = .dir ∧ IsEntryName n ∧ (st.object (d ++ [n])).isSome then some (d ++ [n]) else none

theorem lookupAt_some {st : MountNs} {d e : List Bytes} {n : Bytes} (h : st.lookupAt d n = some e) :
    st.kindAt d = .dir ∧ IsEntryName n ∧ e = d ++ [n] ∧ (st.object (d ++ [n])).isSome = true := by
  unfold lookupAt at h
  split at h
  · next hc =>
    cases h
    exact ⟨hc.1, hc.2.1, rfl, hc.2.2⟩
  · cases h

/-- The file system the namespace shows. -/
def fs (st : MountNs) : FileSystem (List Bytes) :=
  .byLocation st.kindAt (fun d => (st.object d).elim {} fun o => { o.stat with dev := (st.look d).place.vol })
    st.lookupAt rfl (fun h => ⟨(lookupAt_some h).1, (lookupAt_some h).2.1, (lookupAt_some h).2.2.1⟩)
    fun _ => targetLength_kindAt

/-- One more mount. -/
def attach (st : MountNs) (m : Mount Nat Bytes Purpose) (h : m.view.place.vol < st.volumes) : MountNs where
  mounts := st.mounts.attach m
  disk := st.disk
  volumes := st.volumes
  root_bounded := st.root_bounded
  bounded := List.forall_mem_cons.mpr ⟨h, st.bounded⟩
  unused := st.unused

theorem look_vol_lt {st : MountNs} {d : List Bytes} : (st.look d).place.vol < st.volumes := by
  show (st.mounts.mountAt d).view.place.vol < st.volumes
  rcases @Namespace.mountAt_mem _ _ _ _ st.mounts d with h | h
  · rw [h]
    exact st.root_bounded
  · exact st.bounded _ h

/-- `MS_BIND` of the location `src` onto `d`. -/
def bind (st : MountNs) (src d : List Bytes) (purpose : Purpose) : MountNs :=
  st.attach ⟨d, st.look src, purpose⟩ look_vol_lt

/-- `MS_BIND | MS_REC` of a location onto itself. -/
def bindRec (st : MountNs) (d : List Bytes) (purpose : Purpose) : MountNs where
  mounts := st.mounts.bindRec d purpose
  disk := st.disk
  volumes := st.volumes
  root_bounded := st.root_bounded
  bounded m hm := by
    rcases Namespace.mem_bindRec hm with rfl | hm
    · exact look_vol_lt
    · exact st.bounded m hm
  unused := st.unused

/-- A new volume with nothing but its root directory. -/
def addVolume (st : MountNs) : MountNs where
  mounts := st.mounts
  disk := st.disk.put st.volumes [] .directory fun q n h => by simp at h
  volumes := st.volumes + 1
  root_bounded := Nat.lt_succ_of_lt st.root_bounded
  bounded m hm := Nat.lt_succ_of_lt (st.bounded m hm)
  unused {v p} hv := by
    show (st.disk.objects v p).or _ = none
    rw [st.unused (by omega), if_neg (by omega)]
    rfl

/-- A tmpfs on `d`. -/
def tmpfs (st : MountNs) (d : List Bytes) (purpose : Purpose) : MountNs :=
  st.addVolume.attach ⟨d, { place := ⟨st.volumes, []⟩ }, purpose⟩ (Nat.lt_succ_self _)

/-- `MS_REMOUNT | MS_BIND | MS_RDONLY` of the mount of `d`. -/
def lock (st : MountNs) (d : List Bytes) (purpose : Purpose) : MountNs where
  mounts := st.mounts.setReadonly d purpose
  disk := st.disk
  volumes := st.volumes
  root_bounded := by
    rcases @Namespace.root_setReadonly _ _ _ _ st.mounts d purpose with h | h
    all_goals
      rw [h]
      exact st.root_bounded
  bounded m hm := by
    obtain ⟨m', hm', he⟩ := Namespace.mem_setReadonly hm
    have hvol : m.view.place = m'.view.place := by
      rcases he with rfl | rfl
      · rfl
      · rfl
    exact hvol ▸ st.bounded m' hm'
  unused := st.unused

end MountNs

/-! ## The system calls -/

/-- What `mount` is given as its source. -/
inductive MountSource where
  | none
  | tmpfs
  | devNull
  | fd (d : List Bytes)
  deriving DecidableEq, Repr

structure MsFlags where
  bind : Bool := false
  recursive : Bool := false
  remount : Bool := false
  rdonly : Bool := false
  isPrivate : Bool := false
  deriving DecidableEq, Repr

/-- A `mount(2)` on the location a descriptor stands for. -/
structure MountCall where
  source : MountSource := .none
  target : List Bytes
  flags : MsFlags := {}
  deriving DecidableEq, Repr

inductive CloneFlag where
  | CLONE_NEWNS
  | CLONE_NEWUTS
  | CLONE_NEWIPC
  | CLONE_NEWPID
  | CLONE_NEWNET
  deriving DecidableEq, Repr

/-- The calls the kernel refuses for reasons of its own. -/
structure Kernel where
  unshare : List CloneFlag → Option Errno := fun _ => none
  mount : MountNs → MountCall → Option Errno := fun _ _ => none
  create : MountNs → List Bytes → Bytes → Option Errno := fun _ _ _ => none

def EROFS : Errno := .other 30

/-- Where `/dev/null` is. -/
def devNull : List Bytes := [Utf8.encode "dev", Utf8.encode "null"]

namespace MountNs

variable (k : Kernel) (st : MountNs)

/-- A bind onto `target`: a directory onto a directory, anything else onto no directory. -/
def bindCall (src target : List Bytes) (recursive : Bool) (purpose : Purpose) : Except Errno MountNs :=
  if st.kindAt src = .dir ↔ st.kindAt target = .dir then
    .ok (if recursive then st.bindRec target purpose else st.bind src target purpose)
  else .error .ENOTDIR

/-- `mount(2)`, for a purpose. -/
def mount (purpose : Purpose) (call : MountCall) : Except Errno MountNs :=
  match k.mount st call with
  | some e => .error e
  | none =>
    if call.flags.remount then
      if (st.mounts.mountAt call.target).point = call.target then .ok (st.lock call.target purpose)
      else .error .EINVAL
    else if call.flags.bind then
      match call.source with
      | .fd src => st.bindCall src call.target call.flags.recursive purpose
      | .devNull =>
        match openPath st.fs "/dev/null" with
        | .ok src => if st.kindAt src = .dir then .error .ENOTDIR
                     else st.bindCall src call.target call.flags.recursive purpose
        | .error _ => .error .ENOENT
      | _ => .error .EINVAL
    else if call.flags.isPrivate then .ok st
    else if call.source = .tmpfs then
      if st.kindAt call.target = .dir then .ok (st.tmpfs call.target purpose) else .error .ENOTDIR
    else .error .EINVAL

/-- `openat` with `O_CREAT | O_EXCL`, or `mkdirat`, of mode 0. -/
def make (d : List Bytes) (n : Bytes) (kind : Kind) : Except Errno MountNs :=
  match k.create st d n with
  | some e => .error e
  | none =>
    if (st.look d).readonly then .error EROFS
    else if hobj : (∃ o, st.object d = some o ∧ o.kind = .dir) ∧ kind.targetLength < PATH_MAX then
      if (st.object (d ++ [n])).isSome then .error .EEXIST
      else .ok
        { st with
          disk := st.disk.addEntry (st.look d).place.vol (st.look d).place.path n
            { kind, stat := { mode := 0 }, target_length := hobj.2 } hobj.1
          unused := fun {v p} hv => by
            show (st.disk.objects v p).or _ = none
            have := @look_vol_lt st d
            rw [st.unused hv, if_neg (by omega)]
            rfl }
    else .error .ENOTDIR

variable {k : Kernel} {st st' : MountNs} {v : Nat} {p d : List Bytes} {o : Object}

/-- A new volume takes nothing away. -/
theorem objects_tmpfs {purpose : Purpose} (h : st.disk.objects v p = some o) :
    (st.tmpfs d purpose).disk.objects v p = some o := by
  show (st.disk.objects v p).or _ = some o
  rw [h]
  rfl

/-- A new entry changes no mount and takes nothing away. -/
theorem make_ok {n : Bytes} {kind : Kind} (h : st.make k d n kind = .ok st') :
    st'.mounts = st.mounts ∧ st'.volumes = st.volumes ∧
      ∀ {v p o}, st.disk.objects v p = some o → st'.disk.objects v p = some o := by
  unfold make at h
  split at h
  · cases h
  · split at h
    · cases h
    · split at h
      · split at h
        · cases h
        · cases h
          refine ⟨rfl, rfl, fun {v p o} ho => ?_⟩
          show (st.disk.objects v p).or _ = some o
          rw [ho]
          rfl
      · cases h

end MountNs
end SecureSudoers
