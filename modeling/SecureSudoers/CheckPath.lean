/-
What `check_path` is worth on a file system that does not change under it.

It refines the reference resolution: it ends, and it accepts a path exactly
when the reference reaches an object over at most `MAX_SYMLINK_DEPTH` links
with no blocked prefix on the way. One thing separates it from a resolution
over arbitrary bytes: a target that is no text is refused (`read_link_from_fd`).
Where `/proc/self/fd` cannot say where the object is, it fails at the end.

The blocked check looks at what a component leads to, so that a walk that
consumes none never makes it. `checkPath_unblocked_iff` says that this is the
only gap: a path that names the root by links alone while the root is blocked.
-/
import SecureSudoers.Resolution

namespace SecureSudoers

variable {D : Type} {fs : FileSystem D} {blockedPaths : List Str}

/-! ## The reference resolution -/

/-- `/proc/self/fd` says where the object is. -/
def ReadsBack (fs : FileSystem D) (d : D) : Prop := fs.procSelfFd d = .ok (fs.pathOf d)

theorem readsBack_iff {d : D} : ReadsBack fs d ↔ fs.Short d := by
  rw [ReadsBack, FileSystem.procSelfFd_ok, and_iff_left rfl]

/-- **`check_path` terminates, and accepts what the reference resolution
accepts** whose targets are text, with the reached object's canonical path. -/
theorem checkPath_spec {arg : Str} {context : ValidationContext} :
    Walk.Ends fs blockedPaths (Walk.begin arg) (checkPath fs arg context blockedPaths) ∧
      ∀ p, ReadsBack fs p.fd → (checkPath fs arg context blockedPaths = .ok p ↔
        Path.isAbsolute arg = true ∧ ∃ targets visited,
          Resolves fs fs.root (segments (Utf8.encode arg)) targets visited p.fd ∧
            targets.length ≤ MAX_SYMLINK_DEPTH ∧ TextTargets targets ∧ Unblocked fs blockedPaths visited ∧
            p.path = fs.canonicalPath p.fd) := by
  refine ⟨checkPath_steps, fun p hread => ?_⟩
  have hshort := readsBack_iff.mp hread
  rw [checkPath_accepts]
  refine and_congr_right fun _ => exists_congr fun targets => exists_congr fun visited => ?_
  simp only [hshort, and_true]

/-- A directory whose name is no text, and a link to it. -/
def binaryTarget : FileSystem Nat :=
  .ofTree [{ parent := 0, name := [], kind := .dir },
    { parent := 0, name := Utf8.encode "link", kind := .symlink [0xff] },
    { parent := 0, name := [0xff], kind := .dir }] (by decide)

/-- Where the directory is can be read. -/
theorem checkPath_spec_binary :
    ReadsBack binaryTarget 2 ∧ ∀ path, checkPath binaryTarget "/link" .positional [] = .ok ⟨path, 2⟩ ↔
      Path.isAbsolute "/link" = true ∧ ∃ targets visited,
        Resolves binaryTarget 0 (segments (Utf8.encode "/link")) targets visited 2 ∧
          targets.length ≤ MAX_SYMLINK_DEPTH ∧ TextTargets targets ∧ Unblocked binaryTarget [] visited ∧
          path = binaryTarget.canonicalPath 2 := by
  have hread : ReadsBack binaryTarget 2 := readsBack_iff.mpr (by decide)
  exact ⟨hread, fun path => checkPath_spec.2 ⟨path, 2⟩ hread⟩

/-- Without the condition on the targets the equivalence fails: the reference
follows the link, `check_path` refuses its target. -/
theorem checkPath_refuses_binary_target :
    ¬∀ (fs : FileSystem Nat) (blockedPaths : List Str) (arg : Str) (context : ValidationContext) (p : SecurePath Nat),
      Path.isAbsolute arg = true → ReadsBack fs p.fd →
      (checkPath fs arg context blockedPaths = .ok p ↔ ∃ targets visited,
        Resolves fs fs.root (segments (Utf8.encode arg)) targets visited p.fd ∧
          targets.length ≤ MAX_SYMLINK_DEPTH ∧ Unblocked fs blockedPaths visited ∧
          p.path = fs.canonicalPath p.fd) := by
  intro h
  have href : Resolves binaryTarget 0 [.name (Utf8.encode "link")] [[0xff]] [2] 2 :=
    .link (d := 1) (by decide) (by decide) (.name (d := 2) (by decide) (by decide) .done)
  have hok := (h binaryTarget [] "/link" .positional ⟨binaryTarget.canonicalPath 2, 2⟩ (by decide)
    (readsBack_iff.mpr (by decide))).mpr ⟨_, _, href, by decide, by simp [Unblocked], rfl⟩
  have herr : checkPath binaryTarget "/link" .positional [] = .error (.parse "Invalid UTF-8 in symlink") := by rfl
  rw [herr] at hok
  cases hok

/-! ## The final path -/

theorem isAbsolute_canonicalPath {d : D} : Path.isAbsolute (fs.canonicalPath d) = true := by
  unfold FileSystem.canonicalPath FileSystem.pathOf
  split
  · rfl
  · next h =>
    obtain ⟨n, ns, hn⟩ := List.exists_cons_of_ne_nil h
    rw [hn, List.flatMap_cons, List.cons_append, show slash = ('/' : Char).val.toUInt8 from rfl,
      Utf8.lossy_ascii (by decide)]
    rfl

/-- An entry that covers the root covers every absolute path. -/
theorem Covers.of_root {b p : Str} (h : Covers b ['/']) (hp : Path.isAbsolute p = true) : Covers b p := by
  have hroot : Path.components ['/'] = [.rootDir] := by decide
  refine .inr ?_
  simp only [Covers, Path.startsWith, hroot, List.isPrefixOf_iff_prefix] at h ⊢
  rw [Path.components_abs hp]
  rcases h with h | h
  · rw [← h]
    exact ⟨_, rfl⟩
  · exact h.trans ⟨_, rfl⟩

/-- A resolution ends at the root or at an object it reached by a component, and
at its start if it followed no link either. -/
theorem Resolves.ends {cur e : D} {segs : List Segment} {targets : List Bytes} {visited : List D}
    (h : Resolves fs cur segs targets visited e) : e ∈ visited ∨ e = fs.root ∨ e = cur := by
  induction h with
  | done => exact .inr (.inr rfl)
  | parent _ _ ih | name _ _ _ ih =>
    rcases ih with hm | hr | rfl
    · exact .inl (List.mem_cons_of_mem _ hm)
    · exact .inr (.inl hr)
    · exact .inl List.mem_cons_self
  | link _ _ _ ih =>
    unfold FileSystem.base at ih
    split at ih
    · exact ih.imp_right fun h => .inl (h.elim id id)
    · exact ih

theorem canonicalPath_root : fs.canonicalPath fs.root = ['/'] :=
  canonicalPath_of_loc (@Trail.root D fs []).loc

theorem short_root : fs.Short fs.root := by
  rw [FileSystem.Short, FileSystem.pathOf, if_pos fs.root_loc]
  decide

/-- The names in a text's segments are text. -/
theorem name_mem_segments {s : Str} {n : Bytes} (h : .name n ∈ segments (Utf8.encode s)) :
    ∃ t, Utf8.encode t = n := by
  rw [segments_encode] at h
  obtain ⟨c, -, hc⟩ := List.mem_filterMap.mp h
  cases c with
  | normal t =>
    cases hc
    exact ⟨t, rfl⟩
  | parentDir | curDir | rootDir => cases hc

/-- What a resolution of text ends at, it has a trail to. -/
theorem Resolves.trail {cur e : D} {segs : List Segment} {targets : List Bytes} {visited : List D}
    (h : Resolves fs cur segs targets visited e) : ∀ {ns : List Str} {vis : List D},
      Trail fs blockedPaths ns vis cur → (∀ n, .name n ∈ segs → ∃ s, Utf8.encode s = n) → TextTargets targets →
      Unblocked fs blockedPaths visited → ∃ ns vis, Trail fs blockedPaths ns vis e := by
  induction h with
  | done =>
    intro ns vis ht _ _ _
    exact ⟨ns, vis, ht⟩
  | parent _ _ ih =>
    intro ns vis ht hsegs htext hub
    exact ih ht.parent (fun n hn => hsegs n (List.mem_cons_of_mem _ hn)) htext (unblocked_cons.mp hub).2
  | name hl hs _ ih =>
    intro ns vis ht hsegs htext hub
    obtain ⟨n, rfl⟩ := hsegs _ List.mem_cons_self
    have hloc := fs.lookup_loc hl
    rw [ht.loc, ← List.map_singleton, ← List.map_append] at hloc
    have hb := (unblocked_cons.mp hub).1
    rw [canonicalPath_of_loc hloc] at hb
    exact ih (.into ht hl hs hb) (fun m hm => hsegs m (List.mem_cons_of_mem _ hm)) htext (unblocked_cons.mp hub).2
  | @link cur _ _ _ t _ _ _ _ _ _ ih =>
    intro ns vis ht hsegs htext hub
    obtain ⟨⟨s, hs⟩, htext⟩ := textTargets_cons.mp htext
    have henc : Utf8.encode s = t := Utf8.decode?_eq_some.mp hs
    have hbase : ∃ ns vis, Trail fs blockedPaths ns vis (fs.base cur t) := by
      unfold FileSystem.base
      split
      · exact ⟨_, _, .root⟩
      · exact ⟨_, _, ht⟩
    obtain ⟨ns', vis', ht'⟩ := hbase
    refine ih ht' (fun m hm => ?_) htext hub
    rcases List.mem_append.mp hm with hm | hm
    · rw [← henc] at hm
      exact name_mem_segments hm
    · exact hsegs m (List.mem_cons_of_mem _ hm)

/-- **The path `check_path` returns is a fixed point of it**: no link is left in
it, and no blocked directory is passed on the way. -/
theorem checkPath_again {arg : Str} {context context' : ValidationContext} {p : SecurePath D}
    (h : checkPath fs arg context blockedPaths = .ok p) : checkPath fs p.path context' blockedPaths = .ok p := by
  obtain ⟨-, ts, visited, hr, -, htext, hub, hp, hshort⟩ := checkPath_accepts.mp h
  obtain ⟨ns, vis, ht⟩ := hr.trail (@Trail.root D fs blockedPaths) (fun n hn => name_mem_segments hn) htext hub
  have hpath : p.path = Path.render ns := hp.trans (canonicalPath_of_loc ht.loc)
  have hsegs : segments (Utf8.encode (Path.render ns)) = ns.map (fun n => .name (Utf8.encode n)) ++ [] := by
    rw [segments_encode, Path.body_render ht.names, List.filterMap_map, List.append_nil, ← List.filterMap_eq_map]
    rfl
  refine checkPath_accepts.mpr ⟨hpath ▸ Path.isAbsolute_render, ?_⟩
  rw [hpath, hsegs]
  exact ht.accepts.mpr ⟨[], [], .done, by simp, by simp [TextTargets], by simp [Unblocked], hp, hshort⟩

/-- **The path `check_path` returns is outside every blocked entry**, unless an
entry covers the root and the argument names the root through links alone. -/
theorem checkPath_unblocked_iff {arg : Str} {context : ValidationContext} :
    (∀ p, checkPath fs arg context blockedPaths = .ok p → ∀ b ∈ blockedPaths, ¬Covers b p.path) ↔
      ¬((∃ b ∈ blockedPaths, Covers b ['/']) ∧ Path.isAbsolute arg = true ∧ ∃ targets,
        Resolves fs fs.root (segments (Utf8.encode arg)) targets [] fs.root ∧
          targets.length ≤ MAX_SYMLINK_DEPTH ∧ TextTargets targets) := by
  constructor
  · rintro h ⟨⟨b, hb, hroot⟩, habs, ts, hr, hlen, htext⟩
    have hok : checkPath fs arg context blockedPaths = .ok ⟨fs.canonicalPath fs.root, fs.root⟩ :=
      checkPath_accepts.mpr ⟨habs, ts, [], hr, hlen, htext, by simp [Unblocked], rfl, short_root⟩
    exact h _ hok b hb (hroot.of_root isAbsolute_canonicalPath)
  · intro h p hok b hb hcov
    obtain ⟨habs, ts, vis, hr, hlen, htext, hub, hp, -⟩ := checkPath_accepts.mp hok
    rw [hp] at hcov
    have hend : p.fd ∈ vis ∨ p.fd = fs.root := hr.ends.imp_right fun h => h.elim id id
    rcases hend with hm | hroot
    · exact hub _ hm b hb hcov
    · rw [hroot, canonicalPath_root] at hcov
      -- the entry covers every path, so nothing can have been visited
      have hvis : vis = [] := by
        cases vis with
        | nil => rfl
        | cons v vis => exact absurd (hcov.of_root isAbsolute_canonicalPath) (hub v List.mem_cons_self b hb)
      rw [hvis, hroot] at hr
      exact h ⟨⟨b, hb, hcov⟩, habs, ts, hr, hlen, htext⟩

/-- The root itself passes although it is blocked. -/
theorem checkPath_root_passes :
    ¬∀ (fs : FileSystem Nat) (blockedPaths : List Str) (arg : Str) (context : ValidationContext) (p : SecurePath Nat),
      checkPath fs arg context blockedPaths = .ok p → ∀ b ∈ blockedPaths, ¬Covers b p.path := by
  intro h
  let fs : FileSystem Nat := .ofTree [{ parent := 0, name := [], kind := .dir }] (by decide)
  have hok : checkPath fs "/" .positional [['/']] = .ok ⟨['/'], 0⟩ := by rfl
  exact h fs [['/']] "/" .positional ⟨['/'], 0⟩ hok ['/'] (by simp) (by decide)

end SecureSudoers
