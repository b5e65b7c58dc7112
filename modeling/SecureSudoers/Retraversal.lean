/-
A validated path is resolved a second time when it is pinned, by the traversal
that refuses symlinks. On a file system that does not change in between it
reaches the object that was validated, also through the pin itself.
-/
import SecureSudoers.CheckPath
import SecureSudoers.IsolationMasks

namespace SecureSudoers

variable {S D : Type}

/-! ## The two resolvers -/

section
variable {fs : S → FileSystem D} {make : S → D → Bytes → Kind → Except Errno S} {pathStr : Str} {create : Bool} {s : S}
  {blockedPaths : List Str}

/-- The traversal follows a trail without leaving it or creating anything. -/
theorem traverse_trail {ns : List Str} {vis : List D} {d : D} (h : Trail (fs s) blockedPaths ns vis d) :
    ∀ {rest : List Component}, traverse fs make pathStr create s (fs s).root (ns.map .normal ++ rest) =
      traverse fs make pathStr create s d rest := by
  induction h with
  | root => intro rest; rfl
  | @into ns vis d e n _ hl hs _ ih =>
    intro rest
    have hname : IsEntryName (Utf8.encode n) := (fs s).lookup_name hl
    have hopen : (fs s).openat d (Utf8.encode (Component.asOsStr (.normal n))) = .ok e :=
      (FileSystem.openat_ok hname).mpr hl
    have hnul : '\x00' ∉ Component.asOsStr (.normal n) := (isEntryName_encode.mp hname).2
    rw [List.map_append, List.append_assoc, ih, List.map_singleton, List.singleton_append, traverse,
      if_neg hnul, hopen]
    dsimp only
    rw [hs, if_neg Bool.false_ne_true]

theorem safeTraverse_trail {ns : List Str} {vis : List D} {d : D} (h : Trail (fs s) blockedPaths ns vis d) :
    safeTraverse fs make s (Path.render ns) create = .ok (s, d) := by
  rw [safeTraverse, if_pos Path.isAbsolute_render, pathComponents_render h.names, ← List.append_nil (ns.map _),
    traverse_trail h]
  rfl

end

/-- A path that is validated has a trail to its object. -/
theorem checkPath_trail {fs : FileSystem D} {arg : Str} {context : ValidationContext} {blockedPaths : List Str}
    {p : SecurePath D} (h : checkPath fs arg context blockedPaths = .ok p) :
    ∃ ns vis, Trail fs blockedPaths ns vis p.fd ∧ p.path = Path.render ns := by
  obtain ⟨-, _, _, hr, -, htext, hub, hp, -⟩ := checkPath_accepts.mp h
  obtain ⟨ns, vis, ht⟩ := hr.trail (@Trail.root D fs blockedPaths) (fun n hn => name_mem_segments hn) htext hub
  exact ⟨ns, vis, ht, hp.trans (canonicalPath_of_loc ht.loc)⟩

theorem openPath_trail {fs : FileSystem D} {blockedPaths : List Str} {ns : List Str} {vis : List D} {d : D}
    (h : Trail fs blockedPaths ns vis d) : openPath fs (Path.render ns) = .ok d := by
  have hopen : safeTraverse (fun _ : Unit => fs) (fun _ _ _ _ => .error .EACCES) () (Path.render ns) false =
      .ok ((), d) := safeTraverse_trail h
  rw [openPath, hopen]
  rfl

theorem ensurePathMatchesFd_trail {fs : FileSystem D} {blockedPaths : List Str} {ns : List Str} {vis : List D} {d : D}
    (h : Trail fs blockedPaths ns vis d) : ensurePathMatchesFd fs (Path.render ns) (fs.stat d) = .ok () := by
  rw [ensurePathMatchesFd, openPath_trail h]
  simp [bind, Except.bind]

/-! ## The pin -/

section
variable {st : MountNs} {d q : List Bytes} {purpose : Purpose} {blockedPaths : List Str}

/-- A location bound onto itself is still there, and so is everything above it. -/
theorem look_bind_above (h : q <+: d) : (st.bind d d purpose).look q = st.look q := by
  by_cases hd : Mounts.OnWay d q
  · obtain rfl : d = q := hd.2.eq_of_length (Nat.le_antisymm hd.2.length_le h.length_le)
    rw [look_bind_below hd, List.drop_length]
    exact Mounts.View.below_nil
  · exact look_bind_other hd

theorem object_bind_above (h : q <+: d) : (st.bind d d purpose).object q = st.object q := by
  unfold MountNs.object
  rw [look_bind_above h]
  rfl

theorem stat_bind_above (h : q <+: d) : (st.bind d d purpose).fs.stat q = st.fs.stat q := by
  show ((st.bind d d purpose).object q).elim _ _ = (st.object q).elim _ _
  rw [object_bind_above h, look_bind_above h]

theorem kind_bind_above (h : q <+: d) : (st.bind d d purpose).fs.kind q = st.fs.kind q := by
  show (st.bind d d purpose).kindAt q = st.kindAt q
  unfold MountNs.kindAt
  rw [object_bind_above h]

theorem trail_bind {ns : List Str} {vis : List (List Bytes)} {e : List Bytes}
    (h : Trail st.fs blockedPaths ns vis e) : e <+: d → Trail (st.bind d d purpose).fs blockedPaths ns vis e := by
  induction h with
  | root => exact fun _ => .root
  | @into ns vis q e n _ hl hs hb ih =>
    intro he
    obtain ⟨hdir, hname, rfl, hobj⟩ := MountNs.lookupAt_some hl
    have hq : q <+: d := (List.prefix_append q _).trans he
    refine .into (ih hq) ?_ ?_ hb
    · show (st.bind d d purpose).lookupAt q (Utf8.encode n) = _
      unfold MountNs.lookupAt
      rw [if_pos ⟨(kind_bind_above hq).trans hdir, hname, by rwa [object_bind_above he]⟩]
    · rw [← hs]
      unfold FileSystem.isSymlink
      rw [kind_bind_above he]

end

/-- **What is validated is pinned**: the traversal reaches the object the
validator reached, the validator accepts its own result, and on the file system
it was validated in only the mount itself can refuse the pin. -/
theorem checkPath_pinned {arg : Str} {context context' : ValidationContext} {blockedPaths : List Str} :
    (∀ (S D : Type) (fs : S → FileSystem D) (make : S → D → Bytes → Kind → Except Errno S) (s : S) (p : SecurePath D),
      checkPath (fs s) arg context blockedPaths = .ok p →
        safeTraverse fs make s p.path false = .ok (s, p.fd) ∧
        checkPath (fs s) p.path context' blockedPaths = .ok p ∧
        ensurePathMatchesFd (fs s) p.path ((fs s).stat p.fd) = .ok ()) ∧
    ∀ (k : Kernel) (st : MountNs) (p : SecurePath (List Bytes)), checkPath st.fs arg context blockedPaths = .ok p →
      pinPathAtFd k (st.fs.stat p.fd) p.path st =
        match k.mount st { source := .fd p.fd, target := p.fd, flags := { bind := true } } with
        | none => .ok (st.bind p.fd p.fd .pinnedPath)
        | some e => .error (.ioContext ("Security failure: bind-mount pinning failed for '" ++ p.path ++ "'") e) := by
  constructor
  · intro S D fs make s p h
    obtain ⟨ns, vis, ht, hp⟩ := checkPath_trail h
    rw [hp]
    exact ⟨safeTraverse_trail ht, hp ▸ checkPath_again h, ensurePathMatchesFd_trail ht⟩
  · intro k st p h
    obtain ⟨ns, vis, ht, hp⟩ := checkPath_trail h
    have htrail : Trail (st.bind p.fd p.fd .pinnedPath).fs blockedPaths ns vis p.fd := trail_bind ht List.prefix_rfl
    have hpinned := ensurePathMatchesFd_trail htrail
    rw [stat_bind_above List.prefix_rfl] at hpinned
    rw [hp, pinPathAtFd, openPath_trail ht]
    dsimp only [bind, Except.bind]
    rw [if_neg (by simp), mountContext, MountNs.mount]
    cases k.mount st { source := .fd p.fd, target := p.fd, flags := { bind := true } } with
    | some e => rfl
    | none =>
      simp only [MountNs.bindCall, Bool.false_eq_true, if_false, if_true, Except.mapError, hpinned]

/-- A directory and a link to it. -/
def linkedDir : FileSystem Nat :=
  .ofTree [{ parent := 0, name := [], kind := .dir }, { parent := 0, name := Utf8.encode "data", kind := .dir },
    { parent := 0, name := Utf8.encode "link", kind := .symlink (Utf8.encode "data") }] (by decide)

theorem checkPath_pinned_link : checkPath linkedDir "/link" .positional [] = .ok ⟨"/data", 1⟩ ∧
    safeTraverse (fun _ : Unit => linkedDir) (fun _ _ _ _ => .error .EACCES) () "/data" false = .ok ((), 1) :=
  have h : checkPath linkedDir "/link" .positional [] = .ok ⟨"/data", 1⟩ := by rfl
  ⟨h, ((@checkPath_pinned "/link" .positional .positional []).1 Unit Nat (fun _ => linkedDir)
    (fun _ _ _ _ => .error .EACCES) () ⟨"/data", 1⟩ h).1⟩

end SecureSudoers
