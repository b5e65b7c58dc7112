/-
`check_path` while other processes rename directories and files between its
system calls.

The walk holds a descriptor and the text of where it thinks that is; the
blocked check reads the text, the returned path is read back from the
descriptor. `InPlace` says that the two agree. Opening a component keeps it,
and a rename keeps it unless it moves the very entry the walk holds: in runs
without such a rename the result is outside the blocked paths
(`race_unblocked`). A run with one escapes (`rename_escapes`).
-/
import Mathlib.Logic.Relation
import SecureSudoers.CheckPath

namespace SecureSudoers

variable {D : Type}

/-- The file system of the moment and the walk in it. -/
structure Config (D : Type) where
  fs : FileSystem D
  walk : Walk D

/-- The descriptor whose location the walk's text is to be. An opened symlink's is not used. -/
def Walk.held (fs : FileSystem D) : Walk D → Option D
  | .next _ currentFd _ _ _ => some currentFd
  | .opened _ fd _ _ isNormal _ _ => if isNormal && fs.isSymlink fd then none else some fd
  | .start _ _ | .link _ _ _ _ | .done _ => none

/-- The walk makes its next system call, or another process renames an entry. -/
inductive Race (blockedPaths : List Str) : Config D → Config D → Prop where
  | sys {fs : FileSystem D} {w : Walk D} : Race blockedPaths ⟨fs, w⟩ ⟨fs, w.sys fs blockedPaths⟩
  | rename {fs fs' : FileSystem D} {w : Walk D} : fs.Rename fs' → Race blockedPaths ⟨fs, w⟩ ⟨fs', w⟩

/-- The entry the walk holds is not moved by the step. -/
def Undisturbed (c c' : Config D) : Prop := ∀ d, c.walk.held c.fs = some d → c'.fs.loc d = c.fs.loc d

/-- A run of steps that leave the held entry where it is. -/
def UndisturbedRun (blockedPaths : List Str) : Config D → Config D → Prop :=
  Relation.ReflTransGen fun c c' => Race blockedPaths c c' ∧ Undisturbed c c'

/-- A canonical path other than the root. -/
def CanonicalBelowRoot (b : Str) : Prop := ∃ ns, ns ≠ [] ∧ (∀ n ∈ ns, Path.IsName n) ∧ b = Path.render ns

/-- The descriptor is where the text says. -/
def InPlace (fs : FileSystem D) (d : D) (canonical : Str) : Prop :=
  ∃ ns, (∀ n ∈ ns, Path.IsName n) ∧ canonical = Path.render ns ∧ fs.loc d = ns.map Utf8.encode

/-- What the walk relies on between two of its system calls. -/
def RaceInv (blockedPaths : List Str) (c : Config D) : Prop :=
  match c.walk with
  | .start path _ => Path.isAbsolute path = true
  | .next _ fd canonical rest _ =>
    (∀ comp ∈ rest, Path.Inner comp) ∧ InPlace c.fs fd canonical ∧ ∀ b ∈ blockedPaths, ¬Covers b canonical
  | .opened _ fd canonical compStr isNormal rest _ =>
    (∀ comp ∈ rest, Path.Inner comp) ∧ (∃ ns, (∀ n ∈ ns, Path.IsName n) ∧ canonical = Path.render ns) ∧
      ((isNormal && c.fs.isSymlink fd) = false → InPlace c.fs fd (advance canonical compStr isNormal))
  | .link _ canonical rest _ =>
    (∀ comp ∈ rest, Path.Inner comp) ∧ ∃ ns, (∀ n ∈ ns, Path.IsName n) ∧ canonical = Path.render ns
  | .done result => ∀ p, result = .ok p → ∀ b ∈ blockedPaths, ¬Covers b p.path

variable {fs fs' : FileSystem D} {blockedPaths : List Str} {d e : D} {canonical : Str}

theorem InPlace.canonicalPath (h : InPlace fs d canonical) : fs.canonicalPath d = canonical := by
  obtain ⟨ns, -, rfl, hloc⟩ := h
  exact canonicalPath_of_loc hloc

theorem InPlace.root : InPlace fs fs.root ['/'] := ⟨[], by simp, rfl, fs.root_loc⟩

theorem InPlace.parent (h : InPlace fs d canonical) : InPlace fs (fs.parent d) (Path.pop canonical) := by
  obtain ⟨ns, hn, rfl, hloc⟩ := h
  refine ⟨ns.dropLast, fun n hm => hn n (List.dropLast_subset ns hm), Path.pop_render hn, ?_⟩
  rw [fs.parent_loc, hloc, List.map_dropLast]

theorem InPlace.entry {n : Str} (h : InPlace fs d canonical) (hl : fs.lookup d (Utf8.encode n) = some e) :
    InPlace fs e (Path.push canonical n) := by
  obtain ⟨ns, hn, rfl, hloc⟩ := h
  have hname : Path.IsName n := (isEntryName_encode.mp (fs.lookup_name hl)).1
  refine ⟨ns ++ [n], fun m hm => ?_, Path.push_render hn hname, ?_⟩
  · rcases List.mem_append.mp hm with hm | hm
    · exact hn m hm
    · cases List.mem_singleton.mp hm
      exact hname
  · rw [fs.lookup_loc hl, hloc, List.map_append, List.map_cons, List.map_nil]

theorem InPlace.of_loc (h : InPlace fs d canonical) (hloc : fs'.loc d = fs.loc d) : InPlace fs' d canonical := by
  obtain ⟨ns, hn, hc, hl⟩ := h
  exact ⟨ns, hn, hc, hloc.trans hl⟩

theorem CanonicalBelowRoot.not_covers_root {b : Str} (h : CanonicalBelowRoot b) : ¬Covers b ['/'] := by
  obtain ⟨ns, hne, hn, rfl⟩ := h
  obtain ⟨n, ns, rfl⟩ := List.exists_cons_of_ne_nil hne
  have hroot : Path.components ['/'] = [.rootDir] := by decide
  simp [Covers, Path.startsWith, hroot, Path.components_render hn]

theorem isSymlink_congr (h : fs'.kind = fs.kind) : fs'.isSymlink d = fs.isSymlink d := by
  unfold FileSystem.isSymlink
  rw [h]

/-- What the walk opens is in place: at the text the check will read. -/
theorem openComponent_inPlace {path compStr : Str} {isNormal : Bool} {comp : Component} (hc : Path.Inner comp)
    (ho : comp.opened? = some (compStr, isNormal)) (hp : InPlace fs d canonical)
    (hopen : openComponent fs path d compStr = .ok e) : InPlace fs e (advance canonical compStr isNormal) := by
  cases comp with
  | rootDir | curDir => exact hc.elim
  | parentDir =>
    cases ho
    obtain ⟨-, rfl⟩ := openComponent_parent.mp hopen
    exact hp.parent
  | normal n =>
    cases ho
    exact hp.entry ((openComponent_normal hc).mp hopen)

/-! ## The steps -/

theorem RaceInv.sys (hb : ∀ b ∈ blockedPaths, CanonicalBelowRoot b) {w : Walk D} (h : RaceInv blockedPaths ⟨fs, w⟩) :
    RaceInv blockedPaths ⟨fs, w.sys fs blockedPaths⟩ := by
  cases w with
  | start path links =>
    refine ⟨fun comp hc => ?_, InPlace.root, fun b hm => (hb b hm).not_covers_root⟩
    rw [Path.components_abs h, List.drop_one, List.tail_cons] at hc
    exact Path.inner_of_mem_body hc
  | next path fd canonical rest links =>
    obtain ⟨hrest, hplace, hub⟩ := h
    cases rest with
    | nil =>
      intro p hp b hm
      obtain ⟨-, hpath, -⟩ := finish_ok.mp hp
      rw [hpath, hplace.canonicalPath]
      exact hub b hm
    | cons comp rest =>
      have hinner : Path.Inner comp := hrest comp List.mem_cons_self
      have hrest' : ∀ c ∈ rest, Path.Inner c := fun c hc => hrest c (List.mem_cons_of_mem _ hc)
      simp only [Walk.sys]
      cases ho : comp.opened? with
      | none => exact ⟨hrest', hplace, hub⟩
      | some o =>
        obtain ⟨compStr, isNormal⟩ := o
        cases hopen : openComponent fs path fd compStr with
        | error e =>
          simp only [hopen]
          exact fun p hp => by cases hp
        | ok fd' =>
          simp only [hopen]
          refine ⟨hrest', ?_, fun _ => openComponent_inPlace hinner ho hplace hopen⟩
          obtain ⟨ns, hn, hc, -⟩ := hplace
          exact ⟨ns, hn, hc⟩
  | opened path fd canonical compStr isNormal rest links =>
    obtain ⟨hrest, htext, hplace⟩ := h
    simp only [Walk.sys]
    by_cases hs : (isNormal && fs.isSymlink fd) = true
    · rw [if_pos hs]
      split
      · exact fun p hp => by cases hp
      · exact ⟨hrest, htext⟩
    · rw [if_neg hs]
      cases hcb : checkBlocked (advance canonical compStr isNormal) blockedPaths with
      | error e => exact fun p hp => by cases hp
      | ok _ => exact ⟨hrest, hplace (Bool.eq_false_iff.mpr hs), checkBlocked_ok.mp hcb⟩
  | link fd canonical rest links =>
    obtain ⟨hrest, ns, hn, rfl⟩ := h
    simp only [Walk.sys]
    cases readLinkFromFd fs fd with
    | error e => exact fun p hp => by cases hp
    | ok target => exact (rewritten_segments hn hrest).1
  | done result => exact h

theorem RaceInv.rename {w : Walk D} (h : RaceInv blockedPaths ⟨fs, w⟩) (hr : fs.Rename fs')
    (hu : Undisturbed ⟨fs, w⟩ ⟨fs', w⟩) : RaceInv blockedPaths ⟨fs', w⟩ := by
  obtain ⟨src, from_, old, dst, new, hr⟩ := hr
  cases w with
  | start | link | done => exact h
  | next path fd canonical rest links => exact ⟨h.1, h.2.1.of_loc (hu fd rfl), h.2.2⟩
  | opened path fd canonical compStr isNormal rest links =>
    refine ⟨h.1, h.2.1, fun hs => ?_⟩
    have hs' : (isNormal && fs.isSymlink fd) = false := by
      rw [← isSymlink_congr hr.kind]
      exact hs
    refine (h.2.2 hs').of_loc (hu fd ?_)
    simp only [Walk.held, hs', Bool.false_eq_true, if_false]

/-- One step of a run keeps the invariant. -/
theorem RaceInv.step (hb : ∀ b ∈ blockedPaths, CanonicalBelowRoot b) {c c' : Config D} (h : RaceInv blockedPaths c)
    (hs : Race blockedPaths c c') (hu : Undisturbed c c') : RaceInv blockedPaths c' := by
  cases hs with
  | sys => exact h.sys hb
  | rename hr => exact h.rename hr hu

theorem RaceInv.run (hb : ∀ b ∈ blockedPaths, CanonicalBelowRoot b) {c c' : Config D} (h : RaceInv blockedPaths c)
    (hr : UndisturbedRun blockedPaths c c') : RaceInv blockedPaths c' := by
  induction hr with
  | refl => exact h
  | tail _ hs ih => exact ih.step hb hs.1 hs.2

theorem RaceInv.begin {arg : Str} : RaceInv blockedPaths ⟨fs, Walk.begin arg⟩ := by
  unfold Walk.begin
  split
  · assumption
  · exact fun p hp => by cases hp

/-- **In every run in which no rename moves the entry the walk holds**, a path
that `check_path` returns is outside the blocked paths. -/
theorem race_unblocked (hb : ∀ b ∈ blockedPaths, CanonicalBelowRoot b) {arg : Str} {p : SecurePath D}
    (hr : UndisturbedRun blockedPaths ⟨fs, Walk.begin arg⟩ ⟨fs', .done (.ok p)⟩) :
    ∀ b ∈ blockedPaths, ¬Covers b p.path :=
  RaceInv.begin.run hb hr p rfl

/-! ## Two runs -/

theorem Race.steps {w : Walk D} : ∀ {n : Nat},
    Relation.ReflTransGen (Race blockedPaths) ⟨fs, w⟩ ⟨fs, (Walk.sys fs blockedPaths)^[n] w⟩
  | 0 => .refl
  | n + 1 => by
    rw [Function.iterate_succ_apply']
    exact .tail Race.steps .sys

theorem UndisturbedRun.steps {w : Walk D} : ∀ {n : Nat},
    UndisturbedRun blockedPaths ⟨fs, w⟩ ⟨fs, (Walk.sys fs blockedPaths)^[n] w⟩
  | 0 => .refl
  | n + 1 => by
    rw [Function.iterate_succ_apply']
    exact .tail UndisturbedRun.steps ⟨.sys, fun _ _ => rfl⟩

/-- `/tmp/d`, `/root` and `/tmp/e`. -/
def raceNodes : List Node :=
  [{ parent := 0, name := [], kind := .dir }, { parent := 0, name := Utf8.encode "tmp", kind := .dir },
    { parent := 0, name := Utf8.encode "root", kind := .dir }, { parent := 1, name := Utf8.encode "d", kind := .dir },
    { parent := 1, name := Utf8.encode "e", kind := .file }]

def raceTree : FileSystem Nat := .ofTree raceNodes (by decide)

/-- `/tmp/d` moved to `/root/d`. -/
def movedTree : FileSystem Nat := .ofTree (Node.rename raceNodes 3 2 (Utf8.encode "d")) (by decide)

/-- `/tmp/e` moved to `/root/e`. -/
def otherTree : FileSystem Nat := .ofTree (Node.rename raceNodes 4 2 (Utf8.encode "e")) (by decide)

theorem raceTree_moved : raceTree.Rename movedTree :=
  FileSystem.rename_ofTree _ _ (by decide) (by decide) (by decide) (by decide) (by decide)

theorem raceTree_other : raceTree.Rename otherTree :=
  FileSystem.rename_ofTree _ _ (by decide) (by decide) (by decide) (by decide) (by decide)

theorem canonical_root : ∀ b ∈ [("/root" : Str)], CanonicalBelowRoot b := by
  intro b hb
  cases List.mem_singleton.mp hb
  exact ⟨["root"], by decide, fun n hn => by
    cases List.mem_singleton.mp hn
    exact ⟨by decide, by decide, by decide, by decide⟩, by decide⟩

/-- The directory the walk holds is moved below a blocked path before its path is read back. -/
theorem rename_escapes :
    ¬∀ (blockedPaths : List Str), (∀ b ∈ blockedPaths, CanonicalBelowRoot b) →
      ∀ (fs fs' : FileSystem Nat) (arg : Str) (p : SecurePath Nat),
        Relation.ReflTransGen (Race blockedPaths) ⟨fs, Walk.begin arg⟩ ⟨fs', .done (.ok p)⟩ →
        ∀ b ∈ blockedPaths, ¬Covers b p.path := by
  intro h
  have hopen : (Walk.sys raceTree ["/root"])^[5] (Walk.begin "/tmp/d") = .next "/tmp/d" 3 "/tmp/d" [] 0 := by rfl
  have hend : Walk.sys movedTree ["/root"] (.next "/tmp/d" 3 "/tmp/d" [] 0) = .done (.ok ⟨"/root/d", 3⟩) := by rfl
  have hrun : Relation.ReflTransGen (Race [("/root" : Str)]) ⟨raceTree, Walk.begin "/tmp/d"⟩
      ⟨movedTree, .done (.ok ⟨"/root/d", 3⟩)⟩ :=
    hend ▸ .tail (.tail (hopen ▸ Race.steps) (.rename raceTree_moved)) .sys
  exact h _ canonical_root _ _ _ _ hrun "/root" (by simp) (by decide)

/-- A file beside the walk's directory is moved: the path stays where it was. -/
theorem race_unblocked_tmp :
    UndisturbedRun [("/root" : Str)] ⟨raceTree, Walk.begin "/tmp/d"⟩ ⟨otherTree, .done (.ok ⟨"/tmp/d", 3⟩)⟩ ∧
      ∀ b ∈ [("/root" : Str)], ¬Covers b "/tmp/d" := by
  have hopen : (Walk.sys raceTree ["/root"])^[5] (Walk.begin "/tmp/d") = .next "/tmp/d" 3 "/tmp/d" [] 0 := by rfl
  have hend : Walk.sys otherTree ["/root"] (.next "/tmp/d" 3 "/tmp/d" [] 0) = .done (.ok ⟨"/tmp/d", 3⟩) := by rfl
  have hrun : UndisturbedRun [("/root" : Str)] ⟨raceTree, Walk.begin "/tmp/d"⟩ ⟨otherTree, .done (.ok ⟨"/tmp/d", 3⟩)⟩ :=
    hend ▸ .tail (.tail (hopen ▸ UndisturbedRun.steps)
      ⟨.rename raceTree_other, fun d hd => by cases hd; decide⟩) ⟨.sys, fun _ _ => rfl⟩
  exact ⟨hrun, race_unblocked canonical_root hrun⟩

end SecureSudoers
