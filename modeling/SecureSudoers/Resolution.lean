/-
The reference resolution of a path: component by component, in place. `.` and
empty components are ignored, `..` is the directory's parent, a symlink is
replaced by its target where it stands. `Resolves` records the targets it
follows and the objects it reaches after a component that is no symlink.

`walk_ok_iff` is the refinement: the code's walk, which goes back to the root
at every symlink, accepts exactly the paths whose reference resolution follows
few enough links and meets no blocked prefix. The walk back is harmless since
a `Trail` leads to where the link was found: entries that are no symlinks,
none of them blocked (`Trail.resolves`).
-/
import SecureSudoers.FsSteps

namespace SecureSudoers

variable {D : Type}

/-- A component the resolution does not ignore. -/
inductive Segment where
  | parent
  | name (n : Bytes)
  deriving DecidableEq, Repr

def segment? (piece : Bytes) : Option Segment :=
  if piece = [] ∨ piece = dot then none
  else if piece = dotdot then some .parent
  else some (.name piece)

def segments (path : Bytes) : List Segment := (path.splitOn slash).filterMap segment?

/-- Where the resolution of a symlink's target starts. -/
def FileSystem.base (fs : FileSystem D) (cur : D) (target : Bytes) : D :=
  if target.head? = some slash then fs.root else cur

/-- **The reference resolution**: from `cur`, the segments lead to `e`, following
symlinks to `targets` and reaching `visited` on the way. -/
inductive Resolves (fs : FileSystem D) : D → List Segment → List Bytes → List D → D → Prop where
  | done {cur : D} : Resolves fs cur [] [] [] cur
  | parent {cur e : D} {rest : List Segment} {targets : List Bytes} {visited : List D} :
      fs.kind cur = .dir → Resolves fs (fs.parent cur) rest targets visited e →
      Resolves fs cur (.parent :: rest) targets (fs.parent cur :: visited) e
  | name {cur d e : D} {n : Bytes} {rest : List Segment} {targets : List Bytes} {visited : List D} :
      fs.lookup cur n = some d → fs.isSymlink d = false → Resolves fs d rest targets visited e →
      Resolves fs cur (.name n :: rest) targets (d :: visited) e
  | link {cur d e : D} {n t : Bytes} {rest : List Segment} {targets : List Bytes} {visited : List D} :
      fs.lookup cur n = some d → fs.kind d = .symlink t →
      Resolves fs (fs.base cur t) (segments t ++ rest) targets visited e →
      Resolves fs cur (.name n :: rest) (t :: targets) visited e

/-- The canonical path of an object: its location as text. -/
def FileSystem.canonicalPath (fs : FileSystem D) (d : D) : Str := Utf8.lossy (fs.pathOf d)

/-- No object reached is at or below a blocked path. -/
def Unblocked (fs : FileSystem D) (blockedPaths : List Str) (visited : List D) : Prop :=
  ∀ v ∈ visited, ∀ b ∈ blockedPaths, ¬Covers b (fs.canonicalPath v)

/-- Every target followed is text. -/
def TextTargets (targets : List Bytes) : Prop := ∀ t ∈ targets, ∃ s, Utf8.decode? t = some s

variable {fs : FileSystem D} {blockedPaths : List Str}

/-! ## One segment of the reference -/

theorem isSymlink_iff {d : D} : fs.isSymlink d = true ↔ ∃ t, fs.kind d = .symlink t := by
  unfold FileSystem.isSymlink
  cases fs.kind d <;> simp

theorem resolves_nil {cur e : D} {targets : List Bytes} {visited : List D} :
    Resolves fs cur [] targets visited e ↔ targets = [] ∧ visited = [] ∧ e = cur := by
  constructor
  · intro h
    cases h
    exact ⟨rfl, rfl, rfl⟩
  · rintro ⟨rfl, rfl, rfl⟩
    exact .done

theorem resolves_parent {cur e : D} {rest : List Segment} {targets : List Bytes} {visited : List D} :
    Resolves fs cur (.parent :: rest) targets visited e ↔
      fs.kind cur = .dir ∧ ∃ vis, visited = fs.parent cur :: vis ∧ Resolves fs (fs.parent cur) rest targets vis e := by
  constructor
  · intro h
    cases h with
    | parent hd hr => exact ⟨hd, _, rfl, hr⟩
  · rintro ⟨hd, vis, rfl, hr⟩
    exact .parent hd hr

theorem resolves_name {cur d e : D} {n : Bytes} {rest : List Segment} {targets : List Bytes} {visited : List D}
    (hl : fs.lookup cur n = some d) (hs : fs.isSymlink d = false) :
    Resolves fs cur (.name n :: rest) targets visited e ↔
      ∃ vis, visited = d :: vis ∧ Resolves fs d rest targets vis e := by
  constructor
  · intro h
    cases h with
    | name hl' _ hr =>
      rw [hl] at hl'
      cases hl'
      exact ⟨_, rfl, hr⟩
    | link hl' hk _ =>
      rw [hl] at hl'
      cases hl'
      rw [isSymlink_iff.mpr ⟨_, hk⟩] at hs
      cases hs
  · rintro ⟨vis, rfl, hr⟩
    exact .name hl hs hr

theorem resolves_link {cur d e : D} {n t : Bytes} {rest : List Segment} {targets : List Bytes} {visited : List D}
    (hl : fs.lookup cur n = some d) (hk : fs.kind d = .symlink t) :
    Resolves fs cur (.name n :: rest) targets visited e ↔
      ∃ ts, targets = t :: ts ∧ Resolves fs (fs.base cur t) (segments t ++ rest) ts visited e := by
  constructor
  · intro h
    cases h with
    | name hl' hs _ =>
      rw [hl] at hl'
      cases hl'
      rw [isSymlink_iff.mpr ⟨_, hk⟩] at hs
      cases hs
    | link hl' hk' hr =>
      rw [hl] at hl'
      cases hl'
      rw [hk] at hk'
      cases hk'
      exact ⟨_, rfl, hr⟩
  · rintro ⟨ts, rfl, hr⟩
    exact .link hl hk hr

theorem not_resolves_name {cur e : D} {n : Bytes} {rest : List Segment} {targets : List Bytes} {visited : List D}
    (hl : fs.lookup cur n = none) : ¬Resolves fs cur (.name n :: rest) targets visited e := by
  intro h
  cases h with
  | name hl' _ _ | link hl' _ _ => simp [hl] at hl'

/-- A path is resolved in one way. -/
theorem Resolves.unique {cur e : D} {segs : List Segment} {targets : List Bytes} {visited : List D}
    (h : Resolves fs cur segs targets visited e) : ∀ {targets' : List Bytes} {visited' : List D} {e' : D},
    Resolves fs cur segs targets' visited' e' → targets' = targets ∧ visited' = visited ∧ e' = e := by
  induction h with
  | done => exact fun h' => resolves_nil.mp h'
  | parent hd _ ih =>
    intro targets' visited' e' h'
    obtain ⟨-, vis, rfl, hr⟩ := resolves_parent.mp h'
    obtain ⟨ht, rfl, he⟩ := ih hr
    exact ⟨ht, rfl, he⟩
  | name hl hs _ ih =>
    intro targets' visited' e' h'
    obtain ⟨vis, rfl, hr⟩ := (resolves_name hl hs).mp h'
    obtain ⟨ht, rfl, he⟩ := ih hr
    exact ⟨ht, rfl, he⟩
  | link hl hk _ ih =>
    intro targets' visited' e' h'
    obtain ⟨ts, rfl, hr⟩ := (resolves_link hl hk).mp h'
    obtain ⟨rfl, hv, he⟩ := ih hr
    exact ⟨rfl, hv, he⟩

/-! ## Components and segments -/

/-- The segment of a component the walk opens. -/
def Component.segment? : Component → Option Segment
  | .normal n => some (.name (Utf8.encode n))
  | .parentDir => some .parent
  | .curDir | .rootDir => none

theorem encode_slash : Utf8.encode ['/'] = [slash] := by decide

theorem encode_dot : Utf8.encode ['.'] = dot := by decide

theorem encode_dotdot : Utf8.encode ['.', '.'] = dotdot := by decide

theorem encode_eq_dot {s : Str} : Utf8.encode s = dot ↔ s = ['.'] := by
  rw [← encode_dot, Utf8.encode_inj]

theorem encode_eq_dotdot {s : Str} : Utf8.encode s = dotdot ↔ s = ['.', '.'] := by
  rw [← encode_dotdot, Utf8.encode_inj]

theorem segment?_encode {piece : Str} :
    segment? (Utf8.encode piece) = (Path.component? piece).bind Component.segment? := by
  unfold segment? Path.component?
  simp only [Utf8.encode_eq_nil, encode_eq_dot, encode_eq_dotdot]
  split
  · rfl
  · split <;> rfl

theorem segments_encode {s : Str} : segments (Utf8.encode s) = (Path.body s).filterMap Component.segment? := by
  rw [segments, show slash = ('/' : Char).val.toUInt8 from rfl, Utf8.splitOn_encode (by decide), List.filterMap_map,
    Path.body, List.filterMap_filterMap]
  congr 1
  funext piece
  exact segment?_encode

theorem head?_encode_slash {s : Str} : (Utf8.encode s).head? = some slash ↔ Path.isAbsolute s = true := by
  cases s with
  | nil => simp [Path.isAbsolute]
  | cons c s =>
    obtain ⟨b, bs, hb⟩ := List.exists_cons_of_ne_nil (Utf8.encodeChar_ne_nil (c := c))
    have hmem : slash ∈ String.utf8EncodeChar c ↔ c = '/' := Utf8.mem_encodeChar_ascii (by decide)
    simp only [Utf8.encode_cons, hb, List.cons_append, List.head?_cons, Option.some.injEq, Path.isAbsolute, beq_iff_eq]
    constructor
    · rintro rfl
      exact hmem.mp (hb ▸ List.mem_cons_self)
    · rintro rfl
      have : String.utf8EncodeChar '/' = [slash] := by decide
      rw [this] at hb
      cases hb
      rfl

theorem isEntryName_encode {n : Str} : IsEntryName (Utf8.encode n) ↔ Path.IsName n ∧ '\x00' ∉ n := by
  have hs : slash ∉ Utf8.encode n ↔ '/' ∉ n := (Utf8.mem_encode_ascii (d := '/') (by decide)).not
  have h0 : 0 ∉ Utf8.encode n ↔ '\x00' ∉ n := (Utf8.mem_encode_ascii (d := '\x00') (by decide)).not
  constructor
  · intro h
    exact ⟨⟨Utf8.encode_eq_nil.not.mp h.ne_nil, encode_eq_dot.not.mp h.ne_dot, encode_eq_dotdot.not.mp h.ne_dotdot,
      hs.mp h.no_slash⟩, h0.mp h.no_nul⟩
  · intro ⟨h, hn⟩
    exact ⟨Utf8.encode_eq_nil.not.mpr h.ne_nil, encode_eq_dot.not.mpr h.ne_dot, encode_eq_dotdot.not.mpr h.ne_dotdot,
      hs.mpr h.no_slash, h0.mpr hn⟩

theorem openComponent_normal {path : Str} {cur d : D} {n : Str} (hn : Path.IsName n) :
    openComponent fs path cur n = .ok d ↔ fs.lookup cur (Utf8.encode n) = some d := by
  unfold openComponent
  split
  · next h0 =>
    constructor
    · intro h; cases h
    · intro h; exact absurd h0 (isEntryName_encode.mp (fs.lookup_name h)).2
  · next h0 =>
    rw [← FileSystem.openat_ok (isEntryName_encode.mpr ⟨hn, h0⟩)]
    cases fs.openat cur (Utf8.encode n) <;> simp

theorem openComponent_parent {path : Str} {cur d : D} :
    openComponent fs path cur ['.', '.'] = .ok d ↔ fs.kind cur = .dir ∧ fs.parent cur = d := by
  rw [← FileSystem.openat_dotdot]
  unfold openComponent
  rw [if_neg (by decide), encode_dotdot]
  cases fs.openat cur dotdot <;> simp

theorem checkBlocked_ok {path : Str} : ∀ {blocked : List Str},
    checkBlocked path blocked = .ok () ↔ ∀ b ∈ blocked, ¬Covers b path
  | [] => by simp [checkBlocked]
  | b :: rest => by
    unfold checkBlocked
    split
    · next h => simp [h]
    · next h => simp [h, @checkBlocked_ok path rest]

theorem readLinkFromFd_ok {d : D} {t : Bytes} {s : Str} (hk : fs.kind d = .symlink t) :
    readLinkFromFd fs d = .ok s ↔ Utf8.decode? t = some s := by
  have hlen := fs.target_length d
  rw [hk] at hlen
  simp only [Kind.targetLength] at hlen
  simp only [readLinkFromFd, hk, if_neg (Nat.not_le.mpr hlen)]
  cases Utf8.decode? t <;> simp

/-! ## The walk back -/

/-- The names from the root to `d` are entries that are no symlinks, passed
through `visited`, and no prefix of them but perhaps the root is blocked: what
the walk knows of the directory it is in. -/
inductive Trail (fs : FileSystem D) (blockedPaths : List Str) : List Str → List D → D → Prop where
  | root : Trail fs blockedPaths [] [] fs.root
  | into {ns : List Str} {visited : List D} {d e : D} {n : Str} :
      Trail fs blockedPaths ns visited d → fs.lookup d (Utf8.encode n) = some e → fs.isSymlink e = false →
      (∀ b ∈ blockedPaths, ¬Covers b (Path.render (ns ++ [n]))) →
      Trail fs blockedPaths (ns ++ [n]) (visited ++ [e]) e

variable {ns : List Str} {visited : List D} {d : D}

theorem Trail.names (h : Trail fs blockedPaths ns visited d) : ∀ n ∈ ns, Path.IsName n := by
  induction h with
  | root => simp
  | into _ hl _ _ ih =>
    intro m hm
    rcases List.mem_append.mp hm with hm | hm
    · exact ih m hm
    · cases List.mem_singleton.mp hm
      exact (isEntryName_encode.mp (fs.lookup_name hl)).1

theorem Trail.loc (h : Trail fs blockedPaths ns visited d) : fs.loc d = ns.map Utf8.encode := by
  induction h with
  | root => exact fs.root_loc
  | into _ hl _ _ ih => rw [fs.lookup_loc hl, ih, List.map_append, List.map_cons, List.map_nil]

/-- A location whose names are text is written as the path through them. -/
theorem pathOf_of_loc (h : fs.loc d = ns.map Utf8.encode) : fs.pathOf d = Utf8.encode (Path.render ns) := by
  have flat : ∀ ns : List Str, (ns.map Utf8.encode).flatMap (slash :: ·) = Utf8.encode (ns.flatMap ('/' :: ·)) := by
    intro ns
    induction ns with
    | nil => rfl
    | cons n ns ih =>
      have hslash : String.utf8EncodeChar '/' = [slash] := by decide
      rw [List.map_cons, List.flatMap_cons, ih, List.flatMap_cons, Utf8.encode_append, Utf8.encode_cons, hslash]
      rfl
  simp only [FileSystem.pathOf, Path.render, h, List.map_eq_nil_iff, flat]
  split
  · exact encode_slash.symm
  · rfl

theorem canonicalPath_of_loc (h : fs.loc d = ns.map Utf8.encode) : fs.canonicalPath d = Path.render ns := by
  rw [FileSystem.canonicalPath, pathOf_of_loc h, Utf8.lossy_encode]

theorem Trail.unblocked (h : Trail fs blockedPaths ns visited d) : Unblocked fs blockedPaths visited := by
  induction h with
  | root => intro v hv; cases hv
  | into ht hl hs hb ih =>
    intro v hv
    rcases List.mem_append.mp hv with hv | hv
    · exact ih v hv
    · cases List.mem_singleton.mp hv
      rw [canonicalPath_of_loc (Trail.into ht hl hs hb).loc]
      exact hb

/-- `..` goes back along the trail. -/
theorem Trail.parent (h : Trail fs blockedPaths ns visited d) :
    Trail fs blockedPaths ns.dropLast visited.dropLast (fs.parent d) := by
  cases h with
  | root => rw [fs.root_parent]; exact .root
  | into ht hl _ _ => rw [List.dropLast_concat, List.dropLast_concat, fs.lookup_parent hl]; exact ht

/-- **Walking the trail from the root leads back**: no symlink is followed on
the way, and what is visited is what the trail has visited. -/
theorem Trail.resolves (h : Trail fs blockedPaths ns visited d) :
    ∀ {rest : List Segment} {targets : List Bytes} {vis : List D} {e : D},
      Resolves fs fs.root (ns.map (fun n => .name (Utf8.encode n)) ++ rest) targets vis e ↔
        ∃ vis', vis = visited ++ vis' ∧ Resolves fs d rest targets vis' e := by
  induction h with
  | root => simp
  | into _ hl hs _ ih =>
    intro rest targets vis e
    rw [List.map_append, List.append_assoc, List.map_cons, List.map_nil, List.singleton_append, ih]
    constructor
    · rintro ⟨vis', rfl, hr⟩
      obtain ⟨vis'', rfl, hr'⟩ := (resolves_name hl hs).mp hr
      exact ⟨vis'', by rw [List.append_assoc, List.singleton_append], hr'⟩
    · rintro ⟨vis', rfl, hr⟩
      exact ⟨_, by rw [List.append_assoc, List.singleton_append], (resolves_name hl hs).mpr ⟨vis', rfl, hr⟩⟩

theorem unblocked_append {vis₁ vis₂ : List D} :
    Unblocked fs blockedPaths (vis₁ ++ vis₂) ↔ Unblocked fs blockedPaths vis₁ ∧ Unblocked fs blockedPaths vis₂ := by
  simp only [Unblocked, List.mem_append, or_imp, forall_and]

theorem unblocked_cons {v : D} {vis : List D} : Unblocked fs blockedPaths (v :: vis) ↔
    (∀ b ∈ blockedPaths, ¬Covers b (fs.canonicalPath v)) ∧ Unblocked fs blockedPaths vis := by
  simp only [Unblocked, List.mem_cons, forall_eq_or_imp]

theorem textTargets_cons {t : Bytes} {ts : List Bytes} :
    TextTargets (t :: ts) ↔ (∃ s, Utf8.decode? t = some s) ∧ TextTargets ts := by
  simp only [TextTargets, List.mem_cons, forall_eq_or_imp]

/-! ## The code's walk -/

/-- What the walk accepts from `cur` with `left` links to follow. -/
def Accepts (fs : FileSystem D) (blockedPaths : List Str) (left : Nat) (cur : D) (segs : List Segment)
    (p : SecurePath D) : Prop :=
  ∃ targets visited, Resolves fs cur segs targets visited p.fd ∧ targets.length ≤ left ∧ TextTargets targets ∧
    Unblocked fs blockedPaths visited ∧ p.path = fs.canonicalPath p.fd ∧ fs.Short p.fd

theorem finish_ok {cur : D} {p : SecurePath D} :
    finish fs cur = .ok p ↔ p.fd = cur ∧ p.path = fs.canonicalPath cur ∧ fs.Short cur := by
  unfold finish FileSystem.procSelfFd FileSystem.canonicalPath
  obtain ⟨path, fd⟩ := p
  split
  · next target hread =>
    obtain ⟨hshort, rfl⟩ := FileSystem.procSelfFd_ok.mp hread
    simp only [Except.ok.injEq, SecurePath.mk.injEq, hshort, and_true]
    exact ⟨fun h => ⟨h.2.symm, h.1.symm⟩, fun h => ⟨h.2.symm, h.1.symm⟩⟩
  · next e hread =>
    refine iff_of_false (fun h => nomatch h) fun h => ?_
    rw [if_pos h.2.2] at hread
    cases hread

theorem accepts_nil {left : Nat} {cur : D} {p : SecurePath D} :
    Accepts fs blockedPaths left cur [] p ↔ finish fs cur = .ok p := by
  rw [finish_ok]
  constructor
  · rintro ⟨ts, vis, hr, -, -, -, hp⟩
    obtain ⟨rfl, rfl, he⟩ := resolves_nil.mp hr
    rw [he] at hp
    exact ⟨he, hp⟩
  · rintro ⟨rfl, hp⟩
    exact ⟨[], [], .done, by simp, by simp [TextTargets], by simp [Unblocked], hp⟩

/-- A step to `v`, whose path is the one that was checked. -/
theorem accepts_visit {left : Nat} {cur v : D} {seg : Segment} {rest : List Segment} {p : SecurePath D} {path : Str}
    (hpath : fs.canonicalPath v = path)
    (hstep : ∀ ts vis e, Resolves fs cur (seg :: rest) ts vis e ↔ ∃ vis', vis = v :: vis' ∧ Resolves fs v rest ts vis' e) :
    Accepts fs blockedPaths left cur (seg :: rest) p ↔
      checkBlocked path blockedPaths = .ok () ∧ Accepts fs blockedPaths left v rest p := by
  rw [checkBlocked_ok]
  constructor
  · rintro ⟨ts, vis, hr, hlen, htext, hub, hp⟩
    obtain ⟨vis', rfl, hr'⟩ := (hstep ts vis p.fd).mp hr
    rw [unblocked_cons, hpath] at hub
    exact ⟨hub.1, ts, vis', hr', hlen, htext, hub.2, hp⟩
  · rintro ⟨hb, ts, vis, hr, hlen, htext, hub, hp⟩
    refine ⟨ts, v :: vis, (hstep ts _ p.fd).mpr ⟨vis, rfl, hr⟩, hlen, htext, ?_, hp⟩
    rw [unblocked_cons, hpath]
    exact ⟨hb, hub⟩

/-- Following a link to the target `t`. -/
theorem accepts_link {left : Nat} {cur l : D} {n t : Bytes} {rest : List Segment} {p : SecurePath D}
    (hl : fs.lookup cur n = some l) (hk : fs.kind l = .symlink t) :
    Accepts fs blockedPaths left cur (.name n :: rest) p ↔
      ∃ left' s, left = left' + 1 ∧ Utf8.decode? t = some s ∧
        Accepts fs blockedPaths left' (fs.base cur t) (segments t ++ rest) p := by
  constructor
  · rintro ⟨ts, vis, hr, hlen, htext, hub, hp⟩
    obtain ⟨ts', rfl, hr'⟩ := (resolves_link hl hk).mp hr
    rw [textTargets_cons] at htext
    obtain ⟨⟨s, hs⟩, htext⟩ := htext
    rw [List.length_cons] at hlen
    exact ⟨left - 1, s, by omega, hs, ts', vis, hr', by omega, htext, hub, hp⟩
  · rintro ⟨left', s, rfl, hs, ts, vis, hr, hlen, htext, hub, hp⟩
    refine ⟨t :: ts, vis, (resolves_link hl hk).mpr ⟨ts, rfl, hr⟩, ?_, ?_, hub, hp⟩
    · rw [List.length_cons]
      omega
    · rw [textTargets_cons]
      exact ⟨⟨s, hs⟩, htext⟩

/-- The trail back to the link's directory is accepted along with the rest. -/
theorem Trail.accepts (h : Trail fs blockedPaths ns visited d) {left : Nat} {rest : List Segment}
    {p : SecurePath D} :
    Accepts fs blockedPaths left fs.root (ns.map (fun n => .name (Utf8.encode n)) ++ rest) p ↔
      Accepts fs blockedPaths left d rest p := by
  constructor
  · rintro ⟨ts, vis, hr, hlen, htext, hub, hp⟩
    obtain ⟨vis', rfl, hr'⟩ := h.resolves.mp hr
    exact ⟨ts, vis', hr', hlen, htext, (unblocked_append.mp hub).2, hp⟩
  · rintro ⟨ts, vis, hr, hlen, htext, hub, hp⟩
    exact ⟨ts, visited ++ vis, h.resolves.mpr ⟨vis, rfl, hr⟩, hlen, htext, unblocked_append.mpr ⟨h.unblocked, hub⟩, hp⟩

/-- The path a link restarts with spells the trail to its directory, its target
and what was left. -/
theorem body_rewritten {s : Str} {rest : List Component} (h : ∀ n ∈ ns, Path.IsName n)
    (hrest : ∀ c ∈ rest, Path.Inner c) :
    Path.isAbsolute (rewritten (Path.render ns) s rest) = true ∧ Path.body (rewritten (Path.render ns) s rest) =
      (if Path.isAbsolute s then [] else ns.map .normal) ++ (Path.body s ++ rest) := by
  unfold rewritten
  by_cases hs : Path.isAbsolute s = true
  · rw [if_pos hs, if_pos hs]
    exact Path.body_foldl_push hs hrest
  · rw [if_neg hs, if_neg hs]
    have habs' := Path.isAbsolute_push (q := s) (@Path.isAbsolute_render ns)
    obtain ⟨habs, hbody⟩ := Path.body_foldl_push habs' hrest
    refine ⟨habs, ?_⟩
    rw [hbody, Path.body_push Path.isAbsolute_render (Bool.eq_false_iff.mpr hs), Path.body_render h, List.append_assoc]

theorem rewritten_segments {s : Str} {rest : List Component} (h : ∀ n ∈ ns, Path.IsName n)
    (hrest : ∀ c ∈ rest, Path.Inner c) :
    Path.isAbsolute (rewritten (Path.render ns) s rest) = true ∧
      (Path.body (rewritten (Path.render ns) s rest)).filterMap Component.segment? =
        (if Path.isAbsolute s then [] else ns.map fun n => .name (Utf8.encode n)) ++
          (segments (Utf8.encode s) ++ rest.filterMap Component.segment?) := by
  have hnames : (ns.map Component.normal).filterMap Component.segment? = ns.map fun n => .name (Utf8.encode n) := by
    rw [List.filterMap_map, ← List.filterMap_eq_map]
    rfl
  obtain ⟨habs, hbody⟩ := body_rewritten (s := s) h hrest
  refine ⟨habs, ?_⟩
  rw [hbody, List.filterMap_append, List.filterMap_append, segments_encode]
  split
  · rfl
  · rw [hnames]

theorem not_accepts_parent {left : Nat} {cur : D} {rest : List Segment} {p : SecurePath D} (hd : fs.kind cur ≠ .dir) :
    ¬Accepts fs blockedPaths left cur (.parent :: rest) p := by
  rintro ⟨ts, vis, hr, -⟩
  exact hd (resolves_parent.mp hr).1

/-- The loop at `..`. -/
theorem walk_parent {path : Str} {again : Option (Str → Except Error (SecurePath D))} {rest : List Component}
    {canonical : Str} {p : SecurePath D} :
    walk fs blockedPaths path again d canonical (.parentDir :: rest) = .ok p ↔
      fs.kind d = .dir ∧ checkBlocked (Path.pop canonical) blockedPaths = .ok () ∧
        walk fs blockedPaths path again (fs.parent d) (Path.pop canonical) rest = .ok p := by
  rw [walk_cons rfl, bind_ok]
  simp only [openComponent_parent, Bool.false_and, Bool.false_eq_true, if_false, bind_ok, advance]
  constructor
  · rintro ⟨fd, ⟨hd, rfl⟩, ⟨⟩, hc, hw⟩
    exact ⟨hd, hc, hw⟩
  · rintro ⟨hd, hc, hw⟩
    exact ⟨_, ⟨hd, rfl⟩, (), hc, hw⟩

/-- The loop at a name whose entry is no symlink. -/
theorem walk_entry {path : Str} {again : Option (Str → Except Error (SecurePath D))} {rest : List Component}
    {canonical n : Str} {e : D} {p : SecurePath D} (hl : fs.lookup d (Utf8.encode n) = some e)
    (hs : fs.isSymlink e = false) :
    walk fs blockedPaths path again d canonical (.normal n :: rest) = .ok p ↔
      checkBlocked (Path.push canonical n) blockedPaths = .ok () ∧
        walk fs blockedPaths path again e (Path.push canonical n) rest = .ok p := by
  have hopen : openComponent fs path d n = .ok e :=
    (openComponent_normal (isEntryName_encode.mp (fs.lookup_name hl)).1).mpr hl
  rw [walk_cons rfl, hopen]
  simp only [bind, Except.bind, hs, Bool.and_false, Bool.false_eq_true, if_false, advance, if_true]
  cases checkBlocked (Path.push canonical n) blockedPaths <;> simp

/-- The loop at a symlink. -/
theorem walk_link {path : Str} {left : Nat} {rest : List Component} {canonical n : Str} {l : D} {t : Bytes}
    {p : SecurePath D} (hl : fs.lookup d (Utf8.encode n) = some l) (hk : fs.kind l = .symlink t) :
    walk fs blockedPaths path (again fs blockedPaths left) d canonical (.normal n :: rest) = .ok p ↔
      ∃ left' s, left = left' + 1 ∧ Utf8.decode? t = some s ∧
        resolveSecurely fs blockedPaths left' (rewritten canonical s rest) = .ok p := by
  have hopen : openComponent fs path d n = .ok l :=
    (openComponent_normal (isEntryName_encode.mp (fs.lookup_name hl)).1).mpr hl
  rw [walk_cons rfl, hopen]
  simp only [bind, Except.bind, isSymlink_iff.mpr ⟨t, hk⟩, Bool.and_self, if_true]
  cases left with
  | zero => simp [again]
  | succ left =>
    have hb := @bind_ok _ _ _ (readLinkFromFd fs l)
      (fun s => resolveSecurely fs blockedPaths left (rewritten canonical s rest)) p
    simp only [readLinkFromFd_ok hk] at hb
    simp only [again, Nat.succ.injEq, exists_and_left, exists_eq_left']
    exact hb

/-- The loop at a name whose entry is no symlink and not blocked. -/
theorem walk_unblocked {path : Str} {again : Option (Str → Except Error (SecurePath D))} {rest : List Component}
    {n : Str} {e : D} (hn : ∀ m ∈ ns, Path.IsName m) (hl : fs.lookup d (Utf8.encode n) = some e)
    (hs : fs.isSymlink e = false) (hb : ∀ b ∈ blockedPaths, ¬Covers b (Path.render (ns ++ [n]))) :
    walk fs blockedPaths path again d (Path.render ns) (.normal n :: rest) =
      walk fs blockedPaths path again e (Path.render (ns ++ [n])) rest := by
  have hname : Path.IsName n := (isEntryName_encode.mp (fs.lookup_name hl)).1
  rw [walk_cons rfl, (openComponent_normal hname).mpr hl]
  simp only [bind, Except.bind, hs, Bool.and_false, Bool.false_eq_true, if_false, advance, if_true,
    Path.push_render hn hname, checkBlocked_ok.mpr hb]

theorem Trail.walk (h : Trail fs blockedPaths ns visited d) {path : Str}
    {again : Option (Str → Except Error (SecurePath D))} : ∀ {comps : List Component},
    walk fs blockedPaths path again fs.root ['/'] (ns.map .normal ++ comps) =
      walk fs blockedPaths path again d (Path.render ns) comps := by
  induction h with
  | root => exact rfl
  | @into ns vis d e n ht hl hs hb ih =>
    intro comps
    rw [List.map_append, List.append_assoc, List.map_singleton, List.singleton_append, ih,
      walk_unblocked ht.names hl hs hb]

theorem segment?_inner {c : Component} (hc : Path.Inner c) : ∃ seg, c.segment? = some seg := by
  cases c with
  | rootDir | curDir => exact hc.elim
  | parentDir | normal n => exact ⟨_, rfl⟩

/-- **The loop ends where the reference does**, if it follows few enough links, all of
them text, and meets nothing blocked. -/
theorem Resolves.walk {e : D} {segs : List Segment} {targets : List Bytes} {vis : List D}
    (h : Resolves fs d segs targets vis e) : ∀ {path : Str} {left : Nat} {ns : List Str} {visited : List D}
    {comps : List Component}, Trail fs blockedPaths ns visited d → (∀ c ∈ comps, Path.Inner c) →
    comps.filterMap Component.segment? = segs → targets.length ≤ left → TextTargets targets →
    Unblocked fs blockedPaths vis →
      walk fs blockedPaths path (again fs blockedPaths left) d (Path.render ns) comps = finish fs e := by
  induction h with
  | done =>
    intro path left ns visited comps _ hc hsegs _ _ _
    cases comps with
    | nil => rfl
    | cons c comps =>
      obtain ⟨seg, hseg⟩ := segment?_inner (hc c List.mem_cons_self)
      simp [hseg] at hsegs
  | @parent cur e rest targets vis hd _ ih =>
    intro path left ns visited comps ht hc hsegs hlen htext hub
    cases comps with
    | nil => cases hsegs
    | cons c comps =>
      rw [List.forall_mem_cons] at hc
      cases c with
      | rootDir | curDir => exact hc.1.elim
      | normal n => cases hsegs
      | parentDir =>
        rw [unblocked_cons, canonicalPath_of_loc ht.parent.loc] at hub
        rw [walk_cons rfl, openComponent_parent.mpr ⟨hd, rfl⟩]
        simp only [bind, Except.bind, Bool.false_and, Bool.false_eq_true, if_false, advance,
          Path.pop_render ht.names, checkBlocked_ok.mpr hub.1]
        exact ih ht.parent hc.2 (List.cons.inj hsegs).2 hlen htext hub.2
  | @name cur d e n rest targets vis hl hs _ ih =>
    intro path left ns visited comps ht hc hsegs hlen htext hub
    cases comps with
    | nil => cases hsegs
    | cons c comps =>
      rw [List.forall_mem_cons] at hc
      cases c with
      | rootDir | curDir => exact hc.1.elim
      | parentDir => cases hsegs
      | normal n =>
        cases hsegs
        have hloc := fs.lookup_loc hl
        rw [ht.loc, ← List.map_singleton, ← List.map_append] at hloc
        rw [unblocked_cons, canonicalPath_of_loc hloc] at hub
        rw [walk_unblocked ht.names hl hs hub.1]
        exact ih (.into ht hl hs hub.1) hc.2 rfl hlen htext hub.2
  | @link cur l e n t rest targets vis hl hk _ ih =>
    intro path left ns visited comps ht hc hsegs hlen htext hub
    cases comps with
    | nil => cases hsegs
    | cons c comps =>
      rw [List.forall_mem_cons] at hc
      cases c with
      | rootDir | curDir => exact hc.1.elim
      | parentDir => cases hsegs
      | normal n =>
        cases hsegs
        obtain ⟨⟨s, hs⟩, htext⟩ := textTargets_cons.mp htext
        obtain ⟨left', rfl⟩ : ∃ left', left = left' + 1 := ⟨left - 1, by rw [List.length_cons] at hlen; omega⟩
        rw [List.length_cons, Nat.add_le_add_iff_right] at hlen
        have hname : Path.IsName n := (isEntryName_encode.mp (fs.lookup_name hl)).1
        rw [walk_cons rfl, (openComponent_normal hname).mpr hl]
        simp only [bind, Except.bind, isSymlink_iff.mpr ⟨t, hk⟩, Bool.and_self, if_true, again,
          (readLinkFromFd_ok hk).mpr hs]
        obtain ⟨habs, hbody⟩ := body_rewritten (s := s) ht.names hc.2
        rw [resolveSecurely_eq, Path.components_abs habs, List.drop_one, List.tail_cons, hbody]
        have henc : Utf8.encode s = t := Utf8.decode?_eq_some.mp hs
        have hinner : ∀ c ∈ Path.body s ++ comps, Path.Inner c :=
          List.forall_mem_append.mpr ⟨fun c hm => Path.inner_of_mem_body hm, hc.2⟩
        have hsegs : (Path.body s ++ comps).filterMap Component.segment? =
            segments t ++ comps.filterMap Component.segment? := by
          rw [List.filterMap_append, ← segments_encode, henc]
        unfold FileSystem.base at ih
        by_cases hs : Path.isAbsolute s = true
        · rw [if_pos hs, List.nil_append]
          rw [if_pos (henc ▸ head?_encode_slash.mpr hs)] at ih
          exact ih .root hinner hsegs hlen htext hub
        · rw [if_neg hs, ht.walk]
          rw [if_neg (henc ▸ head?_encode_slash.not.mpr hs)] at ih
          exact ih ht hinner hsegs hlen htext hub

/-- **The loop accepts what the reference accepts**, from any directory on a trail. -/
theorem walk_ok_iff {path : Str} {left : Nat} {p : SecurePath D}
    (hagain : ∀ left' text, left = left' + 1 → Path.isAbsolute text = true →
      (resolveSecurely fs blockedPaths left' text = .ok p ↔
        Accepts fs blockedPaths left' fs.root ((Path.body text).filterMap Component.segment?) p)) :
    ∀ {comps : List Component} {ns : List Str} {visited : List D} {d : D}, Trail fs blockedPaths ns visited d →
      (∀ c ∈ comps, Path.Inner c) →
      (walk fs blockedPaths path (again fs blockedPaths left) d (Path.render ns) comps = .ok p ↔
        Accepts fs blockedPaths left d (comps.filterMap Component.segment?) p)
  | [], ns, visited, d, _, _ => by
    rw [List.filterMap_nil, accepts_nil, walk]
  | .rootDir :: _, _, _, _, _, hc | .curDir :: _, _, _, _, _, hc => (hc _ List.mem_cons_self).elim
  | .parentDir :: rest, ns, visited, d, ht, hc => by
    have hrest : ∀ c ∈ rest, Path.Inner c := fun c h => hc c (List.mem_cons_of_mem _ h)
    rw [walk_parent, Path.pop_render ht.names, walk_ok_iff hagain ht.parent hrest]
    show _ ↔ Accepts fs blockedPaths left d (.parent :: rest.filterMap Component.segment?) p
    by_cases hd : fs.kind d = .dir
    · rw [accepts_visit (canonicalPath_of_loc ht.parent.loc) fun ts vis e => resolves_parent.trans (and_iff_right hd)]
      exact and_iff_right hd
    · exact iff_of_false (fun h => hd h.1) (not_accepts_parent hd)
  | .normal n :: rest, ns, visited, d, ht, hc => by
    have hrest : ∀ c ∈ rest, Path.Inner c := fun c h => hc c (List.mem_cons_of_mem _ h)
    have hn : Path.IsName n := hc (.normal n) List.mem_cons_self
    show _ ↔ Accepts fs blockedPaths left d (.name (Utf8.encode n) :: rest.filterMap Component.segment?) p
    cases hl : fs.lookup d (Utf8.encode n) with
    | none =>
      refine iff_of_false ?_ ?_
      · rw [walk_cons rfl, bind_ok]
        rintro ⟨fd, ho, -⟩
        rw [openComponent_normal hn, hl] at ho
        cases ho
      · rintro ⟨ts, vis, hr, -⟩
        exact not_resolves_name hl hr
    | some e =>
      cases hk : fs.isSymlink e with
      | false =>
        rw [walk_entry hl hk, Path.push_render ht.names hn]
        have hpath : fs.canonicalPath e = Path.render (ns ++ [n]) := by
          refine canonicalPath_of_loc ?_
          rw [fs.lookup_loc hl, ht.loc, List.map_append, List.map_cons, List.map_nil]
        rw [accepts_visit hpath fun ts vis e => resolves_name hl hk]
        refine and_congr_right fun hb => ?_
        exact walk_ok_iff hagain (.into ht hl hk (checkBlocked_ok.mp hb)) hrest
      | true =>
        obtain ⟨t, hk⟩ := isSymlink_iff.mp hk
        rw [walk_link hl hk, accepts_link hl hk]
        refine exists_congr fun left' => exists_congr fun s => and_congr_right fun hleft => and_congr_right fun hs => ?_
        have henc : Utf8.encode s = t := Utf8.decode?_eq_some.mp hs
        obtain ⟨habs, hsegs⟩ := rewritten_segments (s := s) ht.names hrest
        rw [hagain left' _ hleft habs, hsegs, henc]
        unfold FileSystem.base
        rw [← henc]
        by_cases hs : Path.isAbsolute s = true
        · rw [if_pos hs, if_pos (head?_encode_slash.mpr hs), List.nil_append]
        · rw [if_neg hs, if_neg (head?_encode_slash.not.mpr hs)]
          exact ht.accepts

theorem resolveSecurely_ok_iff : ∀ {left : Nat} {path : Str} {p : SecurePath D}, Path.isAbsolute path = true →
    (resolveSecurely fs blockedPaths left path = .ok p ↔
      Accepts fs blockedPaths left fs.root ((Path.body path).filterMap Component.segment?) p)
  | left, path, p, h => by
    rw [resolveSecurely_eq, Path.components_abs h, List.drop_one, List.tail_cons]
    refine walk_ok_iff (fun left' text he habs => ?_) .root fun c hc => Path.inner_of_mem_body hc
    cases he
    exact resolveSecurely_ok_iff habs

/-- `check_path` ends where the reference does. -/
theorem checkPath_resolves {arg : Str} {context : ValidationContext} {e : D} {targets : List Bytes} {visited : List D}
    (habs : Path.isAbsolute arg = true) (hr : Resolves fs fs.root (segments (Utf8.encode arg)) targets visited e)
    (hlen : targets.length ≤ MAX_SYMLINK_DEPTH) (htext : TextTargets targets)
    (hub : Unblocked fs blockedPaths visited) : checkPath fs arg context blockedPaths = finish fs e := by
  unfold checkPath
  rw [if_pos habs, resolveSecurely_eq, Path.components_abs habs, List.drop_one, List.tail_cons]
  exact hr.walk .root (fun c hc => Path.inner_of_mem_body hc) segments_encode.symm hlen htext hub

/-- `check_path` accepts exactly the absolute paths the reference resolves
within the link budget and without meeting a blocked prefix. -/
theorem checkPath_accepts {arg : Str} {context : ValidationContext} {p : SecurePath D} :
    checkPath fs arg context blockedPaths = .ok p ↔ Path.isAbsolute arg = true ∧
      Accepts fs blockedPaths MAX_SYMLINK_DEPTH fs.root (segments (Utf8.encode arg)) p := by
  unfold checkPath
  rw [segments_encode]
  by_cases h : Path.isAbsolute arg = true
  · rw [if_pos h, resolveSecurely_ok_iff h, and_iff_right h]
  · rw [if_neg h]
    exact iff_of_false (by simp) fun ha => h ha.1

end SecureSudoers
