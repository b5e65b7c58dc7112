/-
The standard library's paths, as the program uses them on Unix: a path is a
text, and everything but its spelling is decided by its components. Repeated
separators and `.` components are dropped (a leading `.` of a relative path
apart), `..` stays a component of its own: nothing is resolved here.

`render` is the normalized spelling of an absolute path; `components_render`,
`push_render` and `pop_render` say that on it the text operations are the
list operations.
-/
import Mathlib.Data.List.Induction
import SecureSudoers.StdStr

namespace SecureSudoers

/-- A byte string (`OsStr`, a directory entry's name, a symlink's target). -/
abbrev Bytes := List UInt8

/-- `std::path::Component`. -/
inductive Component where
  | rootDir
  | curDir
  | parentDir
  | normal (name : Str)
  deriving DecidableEq, Repr

/-- `Component::as_os_str`. -/
def Component.asOsStr : Component → Str
  | .rootDir => ['/']
  | .curDir => ['.']
  | .parentDir => ['.', '.']
  | .normal name => name

namespace Path

/-- `Path::is_absolute`. -/
def isAbsolute (p : Str) : Bool := p.head? == some '/'

/-- The component a piece between two separators stands for, if it stands for one. -/
def component? (piece : Str) : Option Component :=
  if piece = [] ∨ piece = ['.'] then none
  else if piece = ['.', '.'] then some .parentDir
  else some (.normal piece)

/-- The components after the root, or after a leading `.`. -/
def body (p : Str) : List Component := (p.splitOn '/').filterMap component?

/-- `Path::components`. -/
def components (p : Str) : List Component :=
  if isAbsolute p then .rootDir :: body p
  else if (p.splitOn '/').head? = some ['.'] then .curDir :: body p
  else body p

/-- `Path::starts_with`, by whole components. -/
def startsWith (p base : Str) : Bool := (components base).isPrefixOf (components p)

/-- `PathBuf::push`; `Path::join` is the same on a copy. -/
def push (p q : Str) : Str :=
  if isAbsolute q then q
  else if p = [] ∨ p.getLast? = some '/' then p ++ q
  else p ++ '/' :: q

/-- `iter.collect::<PathBuf>()`. -/
def collect (cs : List Component) : Str := cs.foldl (fun p c => push p c.asOsStr) []

/-- `Path::parent`, spelled without the separators the source text may have repeated. -/
def parent (p : Str) : Option Str :=
  match (components p).getLast? with
  | none | some .rootDir => none
  | some _ => some (collect (components p).dropLast)

/-- `PathBuf::pop`. -/
def pop (p : Str) : Str := (parent p).getD p

/-- `Path::file_name`. -/
def fileName (p : Str) : Option Str :=
  match (components p).getLast? with
  | some (.normal n) => some n
  | _ => none

/-- The normalized spelling of the absolute path through these names. -/
def render (ns : List Str) : Str := if ns = [] then ['/'] else ns.flatMap ('/' :: ·)

/-- May `n` be a component of its own? -/
structure IsName (n : Str) : Prop where
  ne_nil : n ≠ []
  ne_dot : n ≠ ['.']
  ne_dotdot : n ≠ ['.', '.']
  no_slash : '/' ∉ n

instance {n : Str} : Decidable (IsName n) :=
  decidable_of_iff (n ≠ [] ∧ n ≠ ['.'] ∧ n ≠ ['.', '.'] ∧ '/' ∉ n)
    ⟨fun ⟨a, b, c, d⟩ => ⟨a, b, c, d⟩, fun ⟨a, b, c, d⟩ => ⟨a, b, c, d⟩⟩

/-- The components a path has after its root: `..` and names. -/
def Inner : Component → Prop
  | .parentDir => True
  | .normal n => IsName n
  | _ => False

/-! ## Components of a text -/

theorem component?_name {n : Str} (h : IsName n) : component? n = some (.normal n) := by
  simp [component?, h.ne_nil, h.ne_dot, h.ne_dotdot]

theorem inner_of_component? {piece : Str} {c : Component} (h : component? piece = some c) (hs : '/' ∉ piece) :
    Inner c := by
  unfold component? at h
  split at h
  · cases h
  · next h1 =>
    split at h
    · cases h; trivial
    · next h2 =>
      cases h
      simp only [not_or] at h1
      exact ⟨h1.1, h1.2, h2, hs⟩

theorem inner_of_mem_body {p : Str} {c : Component} (h : c ∈ body p) : Inner c := by
  obtain ⟨piece, hp, hc⟩ := List.mem_filterMap.mp h
  exact inner_of_component? hc (Utf8.not_mem_of_mem_splitOn hp)

@[simp] theorem body_nil : body [] = [] := by simp [body, component?]

theorem body_append_slash {p q : Str} : body (p ++ '/' :: q) = body p ++ body q := by
  simp [body, List.splitOn_append_cons_self]

@[simp] theorem body_slash {p : Str} : body ('/' :: p) = body p := body_append_slash (p := [])

theorem body_singleton {n : Str} (hs : '/' ∉ n) : body n = (component? n).toList := by
  rw [body, List.splitOn_eq_singleton hs]
  cases h : component? n <;> simp [h]

theorem body_asOsStr {c : Component} (h : Inner c) : body c.asOsStr = [c] := by
  cases c with
  | rootDir | curDir => exact h.elim
  | parentDir => decide
  | normal n => rw [Component.asOsStr, body_singleton h.no_slash, component?_name h]; rfl

theorem components_abs {p : Str} (h : isAbsolute p = true) : components p = .rootDir :: body p := by
  simp [components, h]

theorem not_isAbsolute_asOsStr {c : Component} (h : Inner c) : isAbsolute c.asOsStr = false := by
  cases c with
  | rootDir | curDir => exact h.elim
  | parentDir => rfl
  | normal n =>
    obtain ⟨x, n, rfl⟩ := List.exists_cons_of_ne_nil h.ne_nil
    have := h.no_slash
    simp only [List.mem_cons, not_or] at this
    simp [isAbsolute, Component.asOsStr, Ne.symm this.1]

/-! ## Pushing -/

theorem isAbsolute_append {p q : Str} (h : isAbsolute p = true) : isAbsolute (p ++ q) = true := by
  cases p with
  | nil => simp [isAbsolute] at h
  | cons x p => simpa [isAbsolute] using h

theorem isAbsolute_push {p q : Str} (h : isAbsolute p = true) : isAbsolute (push p q) = true := by
  unfold push
  split
  · assumption
  · split <;> exact isAbsolute_append h

theorem body_push {p q : Str} (h : isAbsolute p = true) (hq : isAbsolute q = false) :
    body (push p q) = body p ++ body q := by
  have hp : p ≠ [] := by rintro rfl; simp [isAbsolute] at h
  simp only [push, hq, Bool.false_eq_true, ite_false, hp, false_or]
  split
  · next hl =>
    obtain ⟨r, rfl⟩ : ∃ r, p = r ++ ['/'] := by
      rw [List.getLast?_eq_some_iff] at hl
      exact hl
    rw [List.append_assoc, List.singleton_append, body_append_slash, body_append_slash, body_nil,
      List.append_nil]
  · exact body_append_slash

/-- Pushing components back one by one appends them. -/
theorem body_foldl_push {cs : List Component} : ∀ {p : Str}, isAbsolute p = true → (∀ c ∈ cs, Inner c) →
    isAbsolute (cs.foldl (fun p c => push p c.asOsStr) p) = true ∧
      body (cs.foldl (fun p c => push p c.asOsStr) p) = body p ++ cs := by
  induction cs with
  | nil => intro p h _; exact ⟨h, (List.append_nil _).symm⟩
  | cons c cs ih =>
    intro p h hc
    have hcc : Inner c := hc c (by simp)
    obtain ⟨habs, hbody⟩ := ih (p := push p c.asOsStr) (isAbsolute_push h) fun d hd => hc d (by simp [hd])
    refine ⟨habs, hbody.trans ?_⟩
    rw [body_push h (not_isAbsolute_asOsStr hcc), body_asOsStr hcc, List.append_assoc, List.singleton_append]

/-! ## The last component -/

theorem fileName_name {n : Str} (h : IsName n) : fileName n = some n := by
  have hbody : body n = [.normal n] := body_asOsStr (c := .normal n) h
  have hrel : isAbsolute n = false := not_isAbsolute_asOsStr (c := .normal n) h
  have hhead : (n.splitOn '/').head? ≠ some ['.'] := by
    rw [List.splitOn_eq_singleton h.no_slash]
    exact fun he => h.ne_dot (Option.some.inj he)
  rw [fileName, components, hrel, if_neg Bool.false_ne_true, if_neg hhead, hbody]
  rfl

theorem isName_of_mem_components {p n : Str} (h : .normal n ∈ components p) : IsName n := by
  have hbody : .normal n ∈ body p := by
    unfold components at h
    split at h
    · simpa using h
    · split at h
      · simpa using h
      · exact h
  exact inner_of_mem_body hbody

theorem isName_of_fileName {p n : Str} (h : fileName p = some n) : IsName n := by
  unfold fileName at h
  split at h
  · next hlast =>
    cases h
    exact isName_of_mem_components (List.mem_of_getLast? hlast)
  · cases h

theorem fileName_below {p n : Str} (hp : isAbsolute p = true) (h : IsName n) : fileName (p ++ '/' :: n) = some n := by
  have hbody : body n = [.normal n] := body_asOsStr (c := .normal n) h
  rw [fileName, components_abs (isAbsolute_append hp), body_append_slash, hbody, ← List.cons_append,
    List.getLast?_concat]

/-! ## The normalized spelling -/

@[simp] theorem render_nil : render [] = ['/'] := rfl

theorem isAbsolute_render {ns : List Str} : isAbsolute (render ns) = true := by
  cases ns with
  | nil => rfl
  | cons n ns => rfl

theorem body_render {ns : List Str} (h : ∀ n ∈ ns, IsName n) : body (render ns) = ns.map .normal := by
  have names : ∀ {ns : List Str}, (∀ n ∈ ns, IsName n) → body (ns.flatMap ('/' :: ·)) = ns.map .normal := by
    intro ns
    induction ns with
    | nil => intro _; exact body_nil
    | cons n ns ih =>
      intro h
      have hn : IsName n := h n (by simp)
      have hrest := ih fun m hm => h m (by simp [hm])
      have hone : body n = [.normal n] := body_asOsStr (c := .normal n) hn
      cases ns with
      | nil => simpa using hone
      | cons m ns =>
        simp only [List.flatMap_cons, List.cons_append, body_slash] at hrest ⊢
        rw [body_append_slash, hone, hrest, List.singleton_append, ← List.map_cons]
  cases ns with
  | nil => decide
  | cons n ns => exact names h

theorem components_render {ns : List Str} (h : ∀ n ∈ ns, IsName n) :
    components (render ns) = .rootDir :: ns.map .normal := by
  rw [components_abs isAbsolute_render, body_render h]

theorem getLast?_flatMap_slash {ns : List Str} (h : ∀ n ∈ ns, IsName n) (hne : ns ≠ []) :
    (ns.flatMap ('/' :: ·)).getLast? ≠ some '/' := by
  obtain ⟨ms, m, rfl⟩ := List.eq_nil_or_concat ns |>.resolve_left hne
  have hm : IsName m := h m (by simp)
  intro hl
  rw [List.concat_eq_append, List.flatMap_append, List.flatMap_singleton,
    List.getLast?_append_of_ne_nil _ (by simp), List.getLast?_cons_of_ne_nil hm.ne_nil] at hl
  exact hm.no_slash (List.mem_of_getLast? hl)

theorem push_render {ns : List Str} {n : Str} (h : ∀ m ∈ ns, IsName m) (hn : IsName n) :
    push (render ns) n = render (ns ++ [n]) := by
  have hrel : isAbsolute n = false := not_isAbsolute_asOsStr (c := .normal n) hn
  by_cases hne : ns = []
  · subst hne
    simp [push, hrel, render]
  · have hlast := getLast?_flatMap_slash h hne
    have hnil : ns.flatMap ('/' :: ·) ≠ [] := by
      obtain ⟨m, ms, rfl⟩ := List.exists_cons_of_ne_nil hne
      simp
    simp [push, hrel, render, hne, hlast, hnil]

theorem collect_render {ns : List Str} (h : ∀ n ∈ ns, IsName n) :
    collect (.rootDir :: ns.map .normal) = render ns := by
  induction ns using List.reverseRecOn with
  | nil => rfl
  | append_singleton ns n ih =>
    have hns : ∀ m ∈ ns, IsName m := fun m hm => h m (by simp [hm])
    have hn : IsName n := h n (by simp)
    have hih := ih hns
    simp only [collect, List.foldl_cons, List.map_append, List.foldl_append, List.map_cons, List.map_nil,
      List.foldl_nil] at hih ⊢
    rw [hih]
    exact push_render hns hn

theorem parent_render_concat {ns : List Str} {n : Str} (h : ∀ m ∈ ns ++ [n], IsName m) :
    parent (render (ns ++ [n])) = some (render ns) := by
  have hns : ∀ m ∈ ns, IsName m := fun m hm => h m (by simp [hm])
  have hcs : components (render (ns ++ [n])) = (.rootDir :: ns.map .normal) ++ [.normal n] := by
    rw [components_render h, List.map_append, List.cons_append, List.map_cons, List.map_nil]
  simp only [parent, hcs, List.getLast?_concat, List.dropLast_concat, collect_render hns]

theorem pop_render {ns : List Str} (h : ∀ n ∈ ns, IsName n) : pop (render ns) = render ns.dropLast := by
  induction ns using List.reverseRecOn with
  | nil => rfl
  | append_singleton ns n _ => rw [pop, parent_render_concat h, Option.getD_some, List.dropLast_concat]

theorem render_inj {ns ms : List Str} (hns : ∀ n ∈ ns, IsName n) (hms : ∀ m ∈ ms, IsName m) :
    render ns = render ms ↔ ns = ms := by
  refine ⟨fun h => ?_, fun h => by rw [h]⟩
  have hcs := congrArg components h
  rw [components_render hns, components_render hms, List.cons.injEq] at hcs
  exact List.map_injective_iff.mpr (fun _ _ => Component.normal.inj) hcs.2

end Path
end SecureSudoers
