/-
The file system the program walks: a tree of directories, files and symlinks
over an arbitrary type `D` of directory entries, with the facts about it the
kernel guarantees as fields. `openat` is the system call as the program uses
it, one component at a time and without following a final symlink.

`loc` is where an entry is, and what `/proc/self/fd` says where that can be
read. `Rename` relates two moments of one tree between which another process
renamed an entry.
-/
import SecureSudoers.Error

namespace SecureSudoers

inductive Kind where
  | dir
  | file
  | symlink (target : Bytes)
  deriving DecidableEq, Repr

/-- The length of a symlink's target. -/
def Kind.targetLength : Kind → Nat
  | .symlink t => t.length
  | _ => 0

/-- What `stat` says about an object's identity and protection. -/
structure Stat where
  dev : Nat := 0
  ino : Nat := 0
  uid : Nat := 0
  mode : Nat := 0o755
  deriving DecidableEq, Repr

/-- The limit of a path in the kernel, terminator included. -/
def PATH_MAX : Nat := 4096

def ENAMETOOLONG : Errno := .other 36

def slash : UInt8 := '/'.val.toUInt8
def dot : Bytes := [('.' : Char).val.toUInt8]
def dotdot : Bytes := dot ++ dot

/-- May a directory hold an entry of this name? -/
structure IsEntryName (n : Bytes) : Prop where
  ne_nil : n ≠ []
  ne_dot : n ≠ dot
  ne_dotdot : n ≠ dotdot
  no_slash : slash ∉ n
  no_nul : 0 ∉ n

instance {n : Bytes} : Decidable (IsEntryName n) :=
  decidable_of_iff (n ≠ [] ∧ n ≠ dot ∧ n ≠ dotdot ∧ slash ∉ n ∧ 0 ∉ n)
    ⟨fun ⟨a, b, c, d, e⟩ => ⟨a, b, c, d, e⟩, fun ⟨a, b, c, d, e⟩ => ⟨a, b, c, d, e⟩⟩

/-- A file system at one moment. -/
structure FileSystem (D : Type) where
  root : D
  kind : D → Kind
  stat : D → Stat
  lookup : D → Bytes → Option D
  parent : D → D
  loc : D → List Bytes
  root_dir : kind root = .dir
  root_parent : parent root = root
  root_loc : loc root = []
  lookup_dir {d e : D} {n : Bytes} : lookup d n = some e → kind d = .dir
  lookup_name {d e : D} {n : Bytes} : lookup d n = some e → IsEntryName n
  lookup_parent {d e : D} {n : Bytes} : lookup d n = some e → parent e = d
  lookup_loc {d e : D} {n : Bytes} : lookup d n = some e → loc e = loc d ++ [n]
  parent_loc (d : D) : loc (parent d) = (loc d).dropLast
  target_length (d : D) : (kind d).targetLength < PATH_MAX
  /-- Is the name longer than the volume of the directory allows? -/
  nameTooLong : D → Bytes → Bool := fun _ _ => false
  /-- The number of the descriptor on an entry. -/
  fdNumber : D → Nat := fun _ => 3
  /-- Does `realpath` refuse a text that is too long for `open`? musl's does, glibc's does not. -/
  realpathBounded : Bool := false

namespace FileSystem

/-- The file system whose entries are their locations. -/
def byLocation (kind : List Bytes → Kind) (stat : List Bytes → Stat)
    (lookup : List Bytes → Bytes → Option (List Bytes)) (hroot : kind [] = .dir)
    (hlookup : ∀ {d e n}, lookup d n = some e → kind d = .dir ∧ IsEntryName n ∧ e = d ++ [n])
    (hlength : ∀ d, (kind d).targetLength < PATH_MAX) : FileSystem (List Bytes) where
  root := []
  kind := kind
  stat := stat
  lookup := lookup
  parent d := d.dropLast
  loc d := d
  root_dir := hroot
  root_parent := rfl
  root_loc := rfl
  lookup_dir h := (hlookup h).1
  lookup_name h := (hlookup h).2.1
  lookup_parent h := by
    rw [(hlookup h).2.2, List.dropLast_concat]
  lookup_loc h := (hlookup h).2.2
  parent_loc _ := rfl
  target_length := hlength

variable {D : Type}

/-- `openat(dir, name, O_PATH | O_NOFOLLOW)` for a name without separators. -/
def openat (fs : FileSystem D) (dir : D) (name : Bytes) : Except Errno D :=
  if fs.kind dir ≠ .dir then .error .ENOTDIR
  else if name = dot then .ok dir
  else if name = dotdot then .ok (fs.parent dir)
  else match fs.lookup dir name with
    | some e => .ok e
    | none => .error (if fs.nameTooLong dir name then ENAMETOOLONG else .ENOENT)

/-- The path of an entry, which is its location. -/
def pathOf (fs : FileSystem D) (d : D) : Bytes :=
  if fs.loc d = [] then [slash] else (fs.loc d).flatMap (slash :: ·)

/-- Does the path of the entry fit where the kernel writes paths? -/
def Short (fs : FileSystem D) (d : D) : Prop := (fs.pathOf d).length < PATH_MAX

instance {fs : FileSystem D} {d : D} : Decidable (fs.Short d) := inferInstanceAs (Decidable (_ < _))

/-- `readlink` of `/proc/self/fd/n`. -/
def procSelfFd (fs : FileSystem D) (d : D) : Except Errno Bytes :=
  if fs.Short d then .ok (fs.pathOf d) else .error ENAMETOOLONG

/-- What the location of an unlinked entry ends in. -/
def deleted : Bytes := Utf8.encode " (deleted)"

/-- Another process renames the entry `src`, called `old` in `from_`, to `new`
in `dst`; an entry that was there is unlinked. The entry keeps what is below
it, so that the locations of all these change with it. -/
structure RenameOf (fs fs' : FileSystem D) (src from_ : D) (old : Bytes) (dst : D) (new : Bytes) : Prop where
  root : fs'.root = fs.root
  kind : fs'.kind = fs.kind
  stat : fs'.stat = fs.stat
  entry : fs.lookup from_ old = some src
  lookup_new : fs'.lookup dst new = some src
  lookup_old : (from_, old) ≠ (dst, new) → fs'.lookup from_ old = none
  lookup_other {d : D} {n : Bytes} :
    (d, n) ≠ (dst, new) → (d, n) ≠ (from_, old) → fs'.lookup d n = fs.lookup d n
  parent_other {d : D} : d ≠ src → fs'.parent d = fs.parent d
  replaced {d : D} : fs.lookup dst new = some d → d ≠ src →
    fs'.loc d = (fs.loc d).dropLast ++ [new ++ deleted]

def Rename (fs fs' : FileSystem D) : Prop := ∃ src from_ old dst new, RenameOf fs fs' src from_ old dst new

theorem openat_ok {fs : FileSystem D} {dir e : D} {name : Bytes} (h : IsEntryName name) :
    fs.openat dir name = .ok e ↔ fs.lookup dir name = some e := by
  unfold openat
  constructor
  · intro he
    split at he
    · cases he
    · rw [if_neg h.ne_dot, if_neg h.ne_dotdot] at he
      split at he
      · cases he; assumption
      · cases he
  · intro he
    rw [if_neg (by simp [fs.lookup_dir he]), if_neg h.ne_dot, if_neg h.ne_dotdot, he]

theorem procSelfFd_ok {fs : FileSystem D} {d : D} {path : Bytes} :
    fs.procSelfFd d = .ok path ↔ fs.Short d ∧ fs.pathOf d = path := by
  unfold procSelfFd
  split <;> simp [*]

theorem openat_dotdot {fs : FileSystem D} {dir e : D} :
    fs.openat dir dotdot = .ok e ↔ fs.kind dir = .dir ∧ fs.parent dir = e := by
  have hd : dotdot ≠ dot := by decide
  simp only [openat, hd, ite_false, ite_true]
  split <;> simp_all

end FileSystem

/-! ## Trees given by their nodes -/

/-- An entry of a finite tree: its directory is an earlier node. -/
structure Node where
  parent : Nat
  name : Bytes
  kind : Kind
  stat : Stat := {}

namespace Node

def kindAt (ns : List Node) (i : Nat) : Kind := (ns[i]?).elim .file (·.kind)
def parentAt (ns : List Node) (i : Nat) : Nat := (ns[i]?).elim 0 (·.parent)
def nameAt (ns : List Node) (i : Nat) : Bytes := (ns[i]?).elim [] (·.name)

def lookupAt (ns : List Node) (d : Nat) (n : Bytes) : Option Nat :=
  (List.range ns.length).find? fun i => i != 0 && parentAt ns i == d && nameAt ns i == n

/-- The location of node `i`, climbing at most `fuel` directories. -/
def locAt (ns : List Node) : Nat → Nat → List Bytes
  | 0, _ => []
  | fuel + 1, i => if i = 0 ∨ ns.length ≤ i then [] else locAt ns fuel (parentAt ns i) ++ [nameAt ns i]

/-- The first node is the root directory, every other node a well-named entry
of a directory before it. -/
def Tree (ns : List Node) : Prop :=
  kindAt ns 0 = .dir ∧ parentAt ns 0 = 0 ∧ ∀ i < ns.length,
    (kindAt ns i).targetLength < PATH_MAX ∧
    (i ≠ 0 → parentAt ns i < i ∧ kindAt ns (parentAt ns i) = .dir ∧ IsEntryName (nameAt ns i))

instance {ns : List Node} : Decidable (Tree ns) :=
  inferInstanceAs (Decidable (_ ∧ _ ∧ ∀ i < ns.length, _))

theorem lookupAt_some {ns : List Node} {d e : Nat} {n : Bytes} (h : lookupAt ns d n = some e) :
    e < ns.length ∧ e ≠ 0 ∧ parentAt ns e = d ∧ nameAt ns e = n := by
  have hp := List.find?_some h
  have hm := List.mem_of_find?_eq_some h
  simp only [List.mem_range] at hm
  simp only [Bool.and_eq_true, bne_iff_ne, beq_iff_eq] at hp
  exact ⟨hm, hp.1.1, hp.1.2, hp.2⟩

theorem kindAt_of_length_le {ns : List Node} {i : Nat} (h : ns.length ≤ i) : kindAt ns i = .file := by
  simp [kindAt, List.getElem?_eq_none h]

@[simp] theorem locAt_zero {ns : List Node} {f : Nat} : locAt ns f 0 = [] := by
  cases f <;> simp [locAt]

/-- Climbing more than the node's number changes nothing: each directory comes earlier. -/
theorem locAt_fuel {ns : List Node} (ht : Tree ns) :
    ∀ {f g i : Nat}, i ≤ f → i ≤ g → locAt ns f i = locAt ns g i
  | 0, _, _, hf, _ => by simp [Nat.le_zero.mp hf]
  | _, 0, _, _, hg => by simp [Nat.le_zero.mp hg]
  | f + 1, g + 1, i, hf, hg => by
    unfold locAt
    split
    · rfl
    · next hi =>
      simp only [not_or, Nat.not_le] at hi
      have hlt := ((ht.2.2 i hi.2).2 hi.1).1
      rw [locAt_fuel ht (f := f) (g := g) (by omega) (by omega)]

theorem locAt_step {ns : List Node} (ht : Tree ns) {i : Nat} (h0 : i ≠ 0) (hi : i < ns.length) :
    locAt ns i i = locAt ns (parentAt ns i) (parentAt ns i) ++ [nameAt ns i] := by
  obtain ⟨j, rfl⟩ : ∃ j, i = j + 1 := ⟨i - 1, by omega⟩
  have hlt := ((ht.2.2 _ hi).2 h0).1
  have hc : ¬(j + 1 = 0 ∨ ns.length ≤ j + 1) := by omega
  conv => lhs; unfold locAt
  rw [if_neg hc, locAt_fuel ht (f := j) (g := parentAt ns (j + 1)) (by omega) (Nat.le_refl _)]

end Node

/-- The file system of a finite tree. -/
def FileSystem.ofTree (ns : List Node) (h : Node.Tree ns) : FileSystem Nat where
  root := 0
  kind := Node.kindAt ns
  stat i := (ns[i]?).elim {} (·.stat)
  lookup := Node.lookupAt ns
  parent := Node.parentAt ns
  loc i := Node.locAt ns i i
  root_dir := h.1
  root_parent := h.2.1
  root_loc := rfl
  lookup_dir hl := by
    obtain ⟨hi, h0, rfl, -⟩ := Node.lookupAt_some hl
    exact ((h.2.2 _ hi).2 h0).2.1
  lookup_name hl := by
    obtain ⟨hi, h0, -, rfl⟩ := Node.lookupAt_some hl
    exact ((h.2.2 _ hi).2 h0).2.2
  lookup_parent hl := (Node.lookupAt_some hl).2.2.1
  lookup_loc hl := by
    obtain ⟨hi, h0, rfl, rfl⟩ := Node.lookupAt_some hl
    exact Node.locAt_step h h0 hi
  parent_loc i := by
    by_cases hi : ns.length ≤ i
    · have hp : Node.parentAt ns i = 0 := by simp [Node.parentAt, List.getElem?_eq_none hi]
      have hl : Node.locAt ns i i = [] := by
        cases i with
        | zero => rfl
        | succ j => simp [Node.locAt, hi]
      simp [hp, hl]
    · by_cases h0 : i = 0
      · subst h0
        simp [h.2.1]
      · rw [Node.locAt_step h h0 (by omega), List.dropLast_concat]
  target_length i := by
    by_cases hi : i < ns.length
    · exact (h.2.2 i hi).1
    · rw [Node.kindAt_of_length_le (by omega)]
      decide

namespace Node

/-- No two nodes share a directory and a name. -/
def Distinct (ns : List Node) : Prop :=
  ∀ i < ns.length, ∀ j < ns.length,
    i ≠ 0 ∧ j ≠ 0 ∧ parentAt ns i = parentAt ns j ∧ nameAt ns i = nameAt ns j → i = j

instance {ns : List Node} : Decidable (Distinct ns) :=
  inferInstanceAs (Decidable (∀ i < ns.length, ∀ j < ns.length, _))

theorem lookupAt_iff {ns : List Node} (hd : Distinct ns) {d e : Nat} {n : Bytes} :
    lookupAt ns d n = some e ↔ e < ns.length ∧ e ≠ 0 ∧ parentAt ns e = d ∧ nameAt ns e = n := by
  refine ⟨lookupAt_some, fun ⟨he, h0, hp, hn⟩ => ?_⟩
  have hsome : (lookupAt ns d n).isSome := by
    rw [lookupAt, List.find?_isSome]
    exact ⟨e, List.mem_range.mpr he, by simp [h0, hp, hn]⟩
  obtain ⟨i, hi⟩ := Option.isSome_iff_exists.mp hsome
  obtain ⟨hi', hi0, hip, hin⟩ := lookupAt_some hi
  rw [hi, hd i hi' e he ⟨hi0, h0, hip.trans hp.symm, hin.trans hn.symm⟩]

/-- Node `src` renamed to `new` in `dst`. -/
def rename (ns : List Node) (src dst : Nat) (new : Bytes) : List Node :=
  ns.modify src fun node => { node with parent := dst, name := new }

variable {ns : List Node} {src dst : Nat} {new : Bytes}

theorem rename_getElem? {i : Nat} : (rename ns src dst new)[i]? =
    if src = i then (ns[i]?).map fun node => { node with parent := dst, name := new } else ns[i]? := by
  rw [rename, List.getElem?_modify]
  split <;> simp

theorem length_rename : (rename ns src dst new).length = ns.length := by simp [rename]

theorem kindAt_rename {i : Nat} : kindAt (rename ns src dst new) i = kindAt ns i := by
  rw [kindAt, rename_getElem?, kindAt]
  split <;> cases ns[i]? <;> rfl

theorem parentAt_rename {i : Nat} (h : i ≠ src) : parentAt (rename ns src dst new) i = parentAt ns i := by
  rw [parentAt, rename_getElem?, if_neg (Ne.symm h), parentAt]

theorem nameAt_rename {i : Nat} (h : i ≠ src) : nameAt (rename ns src dst new) i = nameAt ns i := by
  rw [nameAt, rename_getElem?, if_neg (Ne.symm h), nameAt]

theorem renamed (h : src < ns.length) :
    parentAt (rename ns src dst new) src = dst ∧ nameAt (rename ns src dst new) src = new := by
  simp [parentAt, nameAt, rename_getElem?, List.getElem?_eq_getElem h]

end Node

/-- Renaming a node, to a name that is free, renames the entry. -/
theorem FileSystem.rename_ofTree {ns : List Node} {src dst : Nat} {new : Bytes} (h : Node.Tree ns)
    (h' : Node.Tree (Node.rename ns src dst new)) (hd : Node.Distinct ns)
    (hd' : Node.Distinct (Node.rename ns src dst new)) (hsrc : src < ns.length) (h0 : src ≠ 0)
    (hfree : Node.lookupAt ns dst new = none) :
    Rename (ofTree ns h) (ofTree (Node.rename ns src dst new) h') := by
  obtain ⟨hp, hn⟩ := @Node.renamed _ _ dst new hsrc
  refine ⟨src, Node.parentAt ns src, Node.nameAt ns src, dst, new, ?_⟩
  refine ⟨rfl, funext fun i => Node.kindAt_rename, funext fun i => ?_, ?_, ?_, fun hne => ?_, fun {d n} h1 h2 => ?_,
    fun hne => Node.parentAt_rename hne, fun hl => ?_⟩
  · show ((Node.rename ns src dst new)[i]?).elim _ _ = (ns[i]?).elim _ _
    rw [Node.rename_getElem?]
    split <;> cases ns[i]? <;> rfl
  · exact (Node.lookupAt_iff hd).mpr ⟨hsrc, h0, rfl, rfl⟩
  · exact (Node.lookupAt_iff hd').mpr ⟨Node.length_rename.symm ▸ hsrc, h0, hp, hn⟩
  · refine Option.eq_none_iff_forall_ne_some.mpr fun e he => ?_
    obtain ⟨hlen, he0, hep, hen⟩ := (Node.lookupAt_iff hd').mp he
    by_cases hes : e = src
    · subst hes
      exact hne (by rw [← hep, ← hen, hp, hn])
    · rw [Node.length_rename] at hlen
      rw [Node.parentAt_rename hes] at hep
      rw [Node.nameAt_rename hes] at hen
      exact hes (hd e hlen src hsrc ⟨he0, h0, hep, hen⟩)
  · refine Option.ext fun e => ?_
    show Node.lookupAt _ d n = some e ↔ Node.lookupAt ns d n = some e
    rw [Node.lookupAt_iff hd', Node.lookupAt_iff hd, Node.length_rename]
    by_cases hes : e = src
    · subst hes
      refine iff_of_false (fun ⟨_, _, a, b⟩ => h1 ?_) (fun ⟨_, _, a, b⟩ => h2 ?_)
      · rw [← a, ← b, hp, hn]
      · rw [← a, ← b]
    · rw [Node.parentAt_rename hes, Node.nameAt_rename hes]
  · exact absurd hl (by show Node.lookupAt ns dst new ≠ _; simp [hfree])

end SecureSudoers
