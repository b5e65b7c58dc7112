/-
The order of the pins (`exec.rs`): which calls the two callbacks get, and what
is left of a run in which one fails. Here the callbacks may do anything, and
what they have done stays when they fail.

The calls are the same whatever the callbacks do, up to the first that fails:
`pinCalls_order`.
-/
import Mathlib.Data.List.Infix
import SecureSudoers.Pinning

namespace SecureSudoers

variable {D σ : Type}

/-! ## The run -/

namespace Callbacks

def pinParents (pinParent : Str → EStateM Error σ Unit) : List Str → List Str → EStateM Error σ (List Str)
  | [], seenParentPaths => pure seenParentPaths
  | parentPath :: rest, seenParentPaths =>
    if parentPath ∈ seenParentPaths then pinParents pinParent rest seenParentPaths
    else do
      pinParent parentPath
      pinParents pinParent rest (parentPath :: seenParentPaths)

def pinParentChainForPath (pinParent : Str → EStateM Error σ Unit) (canonicalPath : Str) (seenParentPaths : List Str) :
    EStateM Error σ (List Str) :=
  if canonicalPath = ['/'] then pure seenParentPaths
  else match parentChain canonicalPath with
    | .error e => throw e
    | .ok chain => pinParents pinParent chain.reverse seenParentPaths

/-- The loop over the arguments. -/
def pinArgs (pinParent : Str → EStateM Error σ Unit) (pinArg : D → Str → EStateM Error σ Unit) :
    List (ValidatedArg D) → List Str → List Str → EStateM Error σ Unit
  | [], _, _ => pure ()
  | .string _ :: rest, seenPaths, seenParentPaths => pinArgs pinParent pinArg rest seenPaths seenParentPaths
  | .path p :: rest, seenPaths, seenParentPaths =>
    if p.path ∈ seenPaths then pinArgs pinParent pinArg rest seenPaths seenParentPaths
    else do
      let seenParentPaths ← pinParentChainForPath pinParent p.path seenParentPaths
      pinArg p.fd p.path
      pinArgs pinParent pinArg rest (p.path :: seenPaths) seenParentPaths

/-- `pin_validated_path_arguments_with`, of callbacks that keep what they have done when they fail. -/
def pinValidatedPathArgumentsWith (cmd : ValidatedCommand D) (pinParent : Str → EStateM Error σ Unit)
    (pinArg : D → Str → EStateM Error σ Unit) : EStateM Error σ Unit := do
  let seenParentPaths ← pinParentChainForPath pinParent cmd.binary.path []
  pinArg cmd.binary.fd cmd.binary.path
  pinArgs pinParent pinArg cmd.args [cmd.binary.path] seenParentPaths

/-! ### Callbacks that leave nothing behind when they fail -/

/-- A callback that changes the state only when it succeeds. -/
def keeping (step : σ → Except Error σ) : EStateM Error σ Unit := fun s =>
  match step s with
  | .ok s' => .ok () s'
  | .error e => .error e s

/-- `y` is the run of `x` from `s`, with `f` of its result and no state after a failure. -/
def Lowers {α β : Type} (f : α → σ → β) (x : EStateM Error σ α) (s : σ) (y : Except Error β) : Prop :=
  match x.run s with
  | .ok a s' => y = .ok (f a s')
  | .error e _ => y = .error e

theorem Lowers.bind {α α' β β' : Type} {f : α → σ → β} {g : α' → σ → β'} {x : EStateM Error σ α} {s : σ}
    {y : Except Error β} {k : α → EStateM Error σ α'} {k' : β → Except Error β'} (h : Lowers f x s y)
    (hk : ∀ a s', Lowers g (k a) s' (k' (f a s'))) : Lowers g (x >>= k) s (y >>= k') := by
  unfold Lowers at h
  rw [Lowers, EStateM.run_bind]
  cases hx : x.run s with
  | ok a s' =>
    rw [hx] at h
    subst h
    exact hk a s'
  | error e s' =>
    rw [hx] at h
    subst h
    rfl

theorem lowers_keeping {step : σ → Except Error σ} {s : σ} : Lowers (fun _ s' => s') (keeping step) s (step s) := by
  unfold Lowers EStateM.run keeping
  cases step s <;> rfl

variable {pinParent : Str → σ → Except Error σ} {pinArg : D → Str → σ → Except Error σ}

theorem lowers_pinParents : ∀ {chain seen : List Str} {s : σ},
    Lowers Prod.mk (pinParents (fun p => keeping (pinParent p)) chain seen) s
      (SecureSudoers.pinParents pinParent chain seen s)
  | [], seen, s => rfl
  | parentPath :: rest, seen, s => by
    unfold pinParents SecureSudoers.pinParents
    split
    · exact lowers_pinParents
    · exact lowers_keeping.bind fun _ _ => lowers_pinParents

theorem lowers_pinParentChain {path : Str} {seen : List Str} {s : σ} :
    Lowers Prod.mk (pinParentChainForPath (fun p => keeping (pinParent p)) path seen) s
      (SecureSudoers.pinParentChainForPath pinParent path seen s) := by
  unfold pinParentChainForPath SecureSudoers.pinParentChainForPath
  split
  · rfl
  · cases parentChain path with
    | error e => rfl
    | ok chain => exact lowers_pinParents

theorem lowers_pinArgs : ∀ {args : List (ValidatedArg D)} {seen parents : List Str} {s : σ},
    Lowers (fun _ s' => s')
      (pinArgs (fun p => keeping (pinParent p)) (fun fd p => keeping (pinArg fd p)) args seen parents) s
      (SecureSudoers.pinArgs pinParent pinArg args seen parents s)
  | [], _, _, _ => rfl
  | .string _ :: rest, seen, parents, s => @lowers_pinArgs rest seen parents s
  | .path p :: rest, seen, parents, s => by
    unfold pinArgs SecureSudoers.pinArgs
    split
    · exact lowers_pinArgs
    · exact lowers_pinParentChain.bind fun _ _ => lowers_keeping.bind fun _ _ => lowers_pinArgs

/-- The run of the pins in a namespace is the run of callbacks that leave nothing behind when they fail. -/
theorem lowers_pinValidatedPathArgumentsWith {cmd : ValidatedCommand D} {s : σ} :
    Lowers (fun _ s' => s')
      (pinValidatedPathArgumentsWith cmd (fun p => keeping (pinParent p)) fun fd p => keeping (pinArg fd p)) s
      (SecureSudoers.pinValidatedPathArgumentsWith cmd pinParent pinArg s) :=
  lowers_pinParentChain.bind fun _ _ => lowers_keeping.bind fun _ _ => lowers_pinArgs

end Callbacks

/-! ## The ancestors -/

/-- `a` is an ancestor of `p`, other than the root and `p` itself. -/
def Ancestor (a p : Str) : Prop :=
  ∃ names more : List Str, (∀ n ∈ names ++ more, Path.IsName n) ∧ names ≠ [] ∧ more ≠ [] ∧
    a = Path.render names ∧ p = Path.render (names ++ more)

theorem not_ancestor_root {a : Str} : ¬Ancestor a ['/'] := by
  rintro ⟨names, more, hnames, hne, -, -, h⟩
  have hnil : [] = names ++ more := (Path.render_inj (by simp) hnames).mp h
  exact hne (List.append_eq_nil_iff.mp hnil.symm).1

theorem ancestor_render_concat {ns : List Str} {n a : Str} (h : ∀ m ∈ ns ++ [n], Path.IsName m) :
    Ancestor a (Path.render (ns ++ [n])) ↔ (ns ≠ [] ∧ a = Path.render ns) ∨ Ancestor a (Path.render ns) := by
  have hns : ∀ m ∈ ns, Path.IsName m := fun m hm => h m (List.mem_append_left _ hm)
  constructor
  · intro ⟨names, more, hnames, hne, hmore, ha, hp⟩
    rw [Path.render_inj h hnames] at hp
    obtain ⟨front, last, rfl⟩ := List.eq_nil_or_concat more |>.resolve_left hmore
    rw [List.concat_eq_append, ← List.append_assoc] at hp
    obtain ⟨rfl, -⟩ := List.append_inj' hp rfl
    by_cases hfront : front = []
    · subst hfront
      exact .inl ⟨by simpa using hne, by rw [ha, List.append_nil]⟩
    · exact .inr ⟨names, front, hns, hne, hfront, ha, rfl⟩
  · rintro (⟨hne, rfl⟩ | ⟨names, more, hnames, hne, hmore, rfl, hp⟩)
    · exact ⟨ns, [n], h, hne, List.cons_ne_nil _ _, rfl, rfl⟩
    · obtain rfl := (Path.render_inj hns hnames).mp hp
      exact ⟨names, more ++ [n], by rwa [← List.append_assoc], hne, by simp, rfl, by rw [List.append_assoc]⟩

/-- The source's loop over the ancestors ends with this chain. -/
inductive ParentLoop : Str → List Str → Prop
  | stop {p} : canonicalParentPath p = .ok ['/'] → ParentLoop p []
  | push {p parentPath chain} : canonicalParentPath p = .ok parentPath → parentPath ≠ ['/'] →
      ParentLoop parentPath chain → ParentLoop p (parentPath :: chain)

/-- Every ancestor of a path in the list is known or stands before it. -/
def AncestorsFirst : List Str → List Str → Prop
  | _, [] => True
  | known, p :: rest => (∀ a, Ancestor a p → a ∈ known) ∧ AncestorsFirst (p :: known) rest

theorem AncestorsFirst.mono : ∀ {chain known known' : List Str}, known ⊆ known' → AncestorsFirst known chain →
    AncestorsFirst known' chain
  | [], _, _, _, _ => trivial
  | p :: _, _, _, hsub, h =>
    ⟨fun a ha => hsub (h.1 a ha), h.2.mono (List.cons_subset_cons p hsub)⟩

theorem AncestorsFirst.concat {p : Str} : ∀ {chain known : List Str}, AncestorsFirst known chain →
    (∀ a, Ancestor a p → a ∈ known ∨ a ∈ chain) → AncestorsFirst known (chain ++ [p])
  | [], known, _, hp => ⟨fun a ha => (hp a ha).resolve_right (by simp), trivial⟩
  | q :: rest, known, h, hp => by
    refine ⟨h.1, h.2.concat fun a ha => ?_⟩
    have hmem := hp a ha
    rw [List.mem_cons] at hmem ⊢
    tauto

theorem parentChainN_render : ∀ {ns : List Str} {fuel : Nat}, ns ≠ [] → (∀ n ∈ ns, Path.IsName n) → ns.length ≤ fuel →
    ∃ chain, ParentLoop (Path.render ns) chain ∧ parentChainN fuel (Path.render ns) = .ok chain ∧
      (∀ a, a ∈ chain ↔ Ancestor a (Path.render ns)) ∧ AncestorsFirst [] chain.reverse := by
  intro ns
  induction ns using List.reverseRecOn with
  | nil => intro _ h; exact absurd rfl h
  | append_singleton ns n ih =>
    intro fuel _ hnames hfuel
    have hns : ∀ m ∈ ns, Path.IsName m := fun m hm => hnames m (List.mem_append_left _ hm)
    obtain ⟨fuel, rfl⟩ : ∃ f, fuel = f + 1 := ⟨fuel - 1, by simp at hfuel; omega⟩
    have hparent : canonicalParentPath (Path.render (ns ++ [n])) = .ok (Path.render ns) := by
      rw [canonicalParentPath, Path.parent_render_concat hnames]
    by_cases hne : ns = []
    · subst hne
      refine ⟨[], .stop hparent, ?_, fun a => ?_, ?_⟩
      · rw [parentChainN, hparent]
        rfl
      · rw [ancestor_render_concat hnames]
        simp [not_ancestor_root]
      · trivial
    · have hroot : Path.render ns ≠ ['/'] := by
        rw [← Path.render_nil, Ne, Path.render_inj hns (by simp)]
        exact hne
      obtain ⟨chain, hloop, hchain, hmem, hfirst⟩ := @ih fuel hne hns (by simpa using hfuel)
      refine ⟨Path.render ns :: chain, .push hparent hroot hloop, ?_, fun a => ?_, ?_⟩
      · rw [parentChainN, hparent]
        dsimp only [bind, Except.bind]
        rw [if_neg hroot, hchain]
      · rw [List.mem_cons, hmem, ancestor_render_concat hnames]
        simp [hne]
      · rw [List.reverse_cons]
        exact hfirst.concat fun a ha => .inr (List.mem_reverse.mpr ((hmem a).mpr ha))

theorem parentChain_canonical {p : Str} (h : Canonical p) (hroot : p ≠ ['/']) :
    ∃ chain, ParentLoop p chain ∧ parentChain p = .ok chain ∧ (∀ a, a ∈ chain ↔ Ancestor a p) ∧
      AncestorsFirst [] chain.reverse := by
  obtain ⟨names, hnames, rfl⟩ := h
  have hne : names ≠ [] := by
    rintro rfl
    exact hroot rfl
  exact parentChainN_render hne hnames (by rw [Path.components_render hnames]; simp; omega)

/-! ## The calls -/

def ValidatedArg.path? : ValidatedArg D → Option (SecurePath D)
  | .string _ => none
  | .path p => some p

/-- The binary and the path arguments, in order, with repetitions. -/
def pathsOf (cmd : ValidatedCommand D) : List (SecurePath D) := cmd.binary :: cmd.args.filterMap ValidatedArg.path?

/-- A call of one of the two callbacks. -/
inductive PinCall (D : Type) where
  | parent (path : Str)
  | arg (fd : D) (path : Str)

namespace PinCall

def path : PinCall D → Str
  | .parent p => p
  | .arg _ p => p

def parent? : PinCall D → Option Str
  | .parent p => some p
  | .arg _ _ => none

def arg? : PinCall D → Option Str
  | .parent _ => none
  | .arg _ p => some p

def perform (pinParent : Str → EStateM Error σ Unit) (pinArg : D → Str → EStateM Error σ Unit) :
    PinCall D → EStateM Error σ Unit
  | .parent p => pinParent p
  | .arg fd p => pinArg fd p

end PinCall

/-- The ancestors pinned by these calls, in order. -/
def parentCalls (calls : List (PinCall D)) : List Str := calls.filterMap PinCall.parent?

/-- The paths pinned by these calls, in order. -/
def argCalls (calls : List (PinCall D)) : List Str := calls.filterMap PinCall.arg?

section
variable {calls : List (PinCall D)} {a p : Str} {fd : D}

theorem parentCalls_parent : parentCalls (calls ++ [.parent a]) = (parentCalls calls).concat a := by
  rw [parentCalls, List.filterMap_append, List.concat_eq_append]
  rfl

theorem parentCalls_arg : parentCalls (calls ++ [.arg fd p]) = parentCalls calls := by
  rw [parentCalls, List.filterMap_append]
  exact List.append_nil _

theorem argCalls_parent : argCalls (calls ++ [.parent a]) = argCalls calls := by
  rw [argCalls, List.filterMap_append]
  exact List.append_nil _

theorem argCalls_arg : argCalls (calls ++ [.arg fd p]) = (argCalls calls).concat p := by
  rw [argCalls, List.filterMap_append, List.concat_eq_append]
  rfl

theorem mem_parentCalls : a ∈ parentCalls calls ↔ .parent a ∈ calls := by
  rw [parentCalls, List.mem_filterMap]
  constructor
  · rintro ⟨b | ⟨fd, p⟩, hc, h⟩
    · cases h
      exact hc
    · cases h
  · exact fun h => ⟨_, h, rfl⟩

theorem mem_argCalls : p ∈ argCalls calls ↔ ∃ fd, .arg fd p ∈ calls := by
  rw [argCalls, List.mem_filterMap]
  constructor
  · rintro ⟨b | ⟨fd, q⟩, hc, h⟩
    · cases h
    · cases h
      exact ⟨fd, hc⟩
  · exact fun ⟨fd, h⟩ => ⟨_, h, rfl⟩

end

/-- What holds of the calls made so far, where `pinned` are all paths to pin. -/
structure PinnedSoFar (pinned : List (SecurePath D)) (calls : List (PinCall D)) (seen parents : List Str) : Prop where
  parents_iff : ∀ a, .parent a ∈ calls ↔ a ∈ parents
  paths_iff : ∀ p, (∃ fd, .arg fd p ∈ calls) ↔ p ∈ seen
  parents_once : (parentCalls calls).Nodup
  paths_once : (argCalls calls).Nodup
  after : ∀ front c rest, calls = front ++ c :: rest → ∀ a, Ancestor a c.path → .parent a ∈ front
  parent_of : ∀ a ∈ parents, ∃ p ∈ pinned, Ancestor a p.path
  arg_of : ∀ fd p, .arg fd p ∈ calls → ⟨p, fd⟩ ∈ pinned

theorem PinnedSoFar.start {pinned : List (SecurePath D)} : PinnedSoFar pinned [] [] [] where
  parents_iff := by simp
  paths_iff := by simp
  parents_once := .nil
  paths_once := .nil
  after := by simp
  parent_of := by simp
  arg_of := by simp

/-- The next call comes after the calls of its ancestors. -/
theorem after_concat {calls : List (PinCall D)} {next : PinCall D}
    (h : ∀ front c rest, calls = front ++ c :: rest → ∀ a, Ancestor a c.path → .parent a ∈ front)
    (hnext : ∀ a, Ancestor a next.path → .parent a ∈ calls) :
    ∀ front c rest, calls ++ [next] = front ++ c :: rest → ∀ a, Ancestor a c.path → .parent a ∈ front := by
  intro front c rest heq a ha
  rcases List.eq_nil_or_concat rest with rfl | ⟨rest, last, rfl⟩
  · obtain ⟨rfl, hc⟩ := List.append_inj' heq rfl
    obtain rfl : next = c := by simpa using hc
    exact hnext a ha
  · rw [List.concat_eq_append, ← List.cons_append, ← List.append_assoc] at heq
    obtain ⟨rfl, -⟩ := List.append_inj' heq rfl
    exact h front c rest rfl a ha

variable {pinned : List (SecurePath D)} {calls : List (PinCall D)} {seen parents : List Str}

theorem PinnedSoFar.parent {a : Str} (h : PinnedSoFar pinned calls seen parents) (hnew : a ∉ parents)
    (hfirst : ∀ b, Ancestor b a → b ∈ parents) (hof : ∃ p ∈ pinned, Ancestor a p.path) :
    PinnedSoFar pinned (calls ++ [.parent a]) seen (a :: parents) where
  parents_iff b := by simp [h.parents_iff, or_comm]
  paths_iff p := by simpa using h.paths_iff p
  parents_once := by
    rw [parentCalls_parent]
    exact h.parents_once.concat (by rwa [mem_parentCalls, h.parents_iff])
  paths_once := by
    rw [argCalls_parent]
    exact h.paths_once
  after := after_concat h.after fun b hb => (h.parents_iff b).mpr (hfirst b hb)
  parent_of := List.forall_mem_cons.mpr ⟨hof, h.parent_of⟩
  arg_of fd p hmem := h.arg_of fd p (by simpa using hmem)

theorem PinnedSoFar.arg {fd : D} {p : Str} (h : PinnedSoFar pinned calls seen parents) (hnew : p ∉ seen)
    (hfirst : ∀ b, Ancestor b p → b ∈ parents) (hof : ⟨p, fd⟩ ∈ pinned) :
    PinnedSoFar pinned (calls ++ [.arg fd p]) (p :: seen) parents where
  parents_iff b := by simpa using h.parents_iff b
  paths_iff q := by
    simp only [List.mem_append, PinCall.arg.injEq, List.mem_cons, ← h.paths_iff]
    grind
  parents_once := by
    rw [parentCalls_arg]
    exact h.parents_once
  paths_once := by
    rw [argCalls_arg]
    exact h.paths_once.concat (by rwa [mem_argCalls, h.paths_iff])
  after := after_concat h.after fun b hb => (h.parents_iff b).mpr (hfirst b hb)
  parent_of := h.parent_of
  arg_of fd' q hmem := by
    rcases List.mem_append.mp hmem with hmem | hmem
    · exact h.arg_of fd' q hmem
    · cases List.mem_singleton.mp hmem
      exact hof

/-! ## The calls of a run -/

theorem pinParents_calls : ∀ {chain : List Str} {calls : List (PinCall D)} {parents : List Str},
    PinnedSoFar pinned calls seen parents → AncestorsFirst parents chain →
    (∀ a ∈ chain, ∃ p ∈ pinned, Ancestor a p.path) →
    ∃ next parents', PinnedSoFar pinned (calls ++ next) seen parents' ∧ parents ⊆ parents' ∧ chain ⊆ parents' ∧
      ∀ (σ : Type) (pinParent : Str → EStateM Error σ Unit) (pinArg : D → Str → EStateM Error σ Unit),
        Callbacks.pinParents pinParent chain parents =
          (do forM next (PinCall.perform pinParent pinArg); pure parents')
  | [], calls, parents, h, _, _ => by
    refine ⟨[], parents, by rwa [List.append_nil], List.Subset.refl _, List.nil_subset _, fun σ pinParent pinArg => ?_⟩
    simp [Callbacks.pinParents]
  | a :: rest, calls, parents, h, hfirst, hof => by
    rw [List.forall_mem_cons] at hof
    by_cases ha : a ∈ parents
    · obtain ⟨next, parents', h', hsub, hrest, hrun⟩ :=
        pinParents_calls h (hfirst.2.mono (List.cons_subset.mpr ⟨ha, List.Subset.refl _⟩)) hof.2
      refine ⟨next, parents', h', hsub, List.cons_subset.mpr ⟨hsub ha, hrest⟩, fun σ pinParent pinArg => ?_⟩
      rw [Callbacks.pinParents, if_pos ha, hrun]
    · obtain ⟨next, parents', h', hsub, hrest, hrun⟩ :=
        pinParents_calls (h.parent ha hfirst.1 hof.1) hfirst.2 hof.2
      obtain ⟨ha', hsub⟩ := List.cons_subset.mp hsub
      rw [List.append_assoc, List.singleton_append] at h'
      refine ⟨.parent a :: next, parents', h', hsub, List.cons_subset.mpr ⟨ha', hrest⟩, fun σ pinParent pinArg => ?_⟩
      rw [Callbacks.pinParents, if_neg ha, hrun σ pinParent pinArg, List.forM_cons, bind_assoc]
      rfl

theorem pinParentChain_calls {p : SecurePath D} (h : PinnedSoFar pinned calls seen parents) (hp : p ∈ pinned)
    (hcanon : Canonical p.path) :
    ∃ next parents', PinnedSoFar pinned (calls ++ next) seen parents' ∧ (∀ a, Ancestor a p.path → a ∈ parents') ∧
      ∀ (σ : Type) (pinParent : Str → EStateM Error σ Unit) (pinArg : D → Str → EStateM Error σ Unit),
        Callbacks.pinParentChainForPath pinParent p.path parents =
          (do forM next (PinCall.perform pinParent pinArg); pure parents') := by
  by_cases hroot : p.path = ['/']
  · refine ⟨[], parents, by rwa [List.append_nil], fun a ha => ?_, fun σ pinParent pinArg => ?_⟩
    · rw [hroot] at ha
      exact absurd ha not_ancestor_root
    · simp [Callbacks.pinParentChainForPath, hroot]
  · obtain ⟨chain, -, hchain, hmem, hfirst⟩ := parentChain_canonical hcanon hroot
    obtain ⟨next, parents', h', -, hsub, hrun⟩ :=
      pinParents_calls h (hfirst.mono (List.nil_subset _)) fun a ha => ⟨p, hp, (hmem a).mp (List.mem_reverse.mp ha)⟩
    refine ⟨next, parents', h', fun a ha => hsub (List.mem_reverse.mpr ((hmem a).mpr ha)), fun σ pinParent pinArg => ?_⟩
    rw [Callbacks.pinParentChainForPath, if_neg hroot, hchain, ← hrun]

/-- One path: its ancestors, then the path itself. -/
theorem pinPath_calls {p : SecurePath D} (h : PinnedSoFar pinned calls seen parents) (hp : p ∈ pinned)
    (hcanon : Canonical p.path) (hnew : p.path ∉ seen) :
    ∃ next parents', PinnedSoFar pinned (calls ++ next) (p.path :: seen) parents' ∧
      ∀ (σ : Type) (pinParent : Str → EStateM Error σ Unit) (pinArg : D → Str → EStateM Error σ Unit)
        (k : List Str → EStateM Error σ Unit),
        (do
          let seenParentPaths ← Callbacks.pinParentChainForPath pinParent p.path parents
          pinArg p.fd p.path
          k seenParentPaths) = (do forM next (PinCall.perform pinParent pinArg); k parents') := by
  obtain ⟨next, parents', h', hall, hrun⟩ := pinParentChain_calls h hp hcanon
  refine ⟨next ++ [.arg p.fd p.path], parents', ?_, fun σ pinParent pinArg k => ?_⟩
  · rw [← List.append_assoc]
    exact h'.arg hnew hall hp
  · rw [hrun σ pinParent pinArg, List.forM_append]
    simp [PinCall.perform]

theorem pinArgs_calls : ∀ {args : List (ValidatedArg D)} {calls : List (PinCall D)} {seen parents : List Str},
    PinnedSoFar pinned calls seen parents → (∀ p ∈ args.filterMap ValidatedArg.path?, p ∈ pinned ∧ Canonical p.path) →
    ∃ next seen' parents', PinnedSoFar pinned (calls ++ next) seen' parents' ∧ seen ⊆ seen' ∧
      (∀ p ∈ args.filterMap ValidatedArg.path?, p.path ∈ seen') ∧
      ∀ (σ : Type) (pinParent : Str → EStateM Error σ Unit) (pinArg : D → Str → EStateM Error σ Unit),
        Callbacks.pinArgs pinParent pinArg args seen parents = forM next (PinCall.perform pinParent pinArg)
  | [], calls, seen, parents, h, _ => by
    refine ⟨[], seen, parents, by rwa [List.append_nil], List.Subset.refl _, by simp, fun σ pinParent pinArg => ?_⟩
    simp [Callbacks.pinArgs]
  | .string _ :: rest, calls, seen, parents, h, hargs => @pinArgs_calls rest calls seen parents h hargs
  | .path p :: rest, calls, seen, parents, h, hargs => by
    have hcons : (ValidatedArg.path p :: rest).filterMap ValidatedArg.path? =
        p :: rest.filterMap ValidatedArg.path? := rfl
    rw [hcons, List.forall_mem_cons] at hargs
    rw [hcons]
    by_cases hp : p.path ∈ seen
    · obtain ⟨next, seen', parents', h', hsub, hrest, hrun⟩ := pinArgs_calls h hargs.2
      refine ⟨next, seen', parents', h', hsub, List.forall_mem_cons.mpr ⟨hsub hp, hrest⟩, fun σ pinParent pinArg => ?_⟩
      rw [Callbacks.pinArgs, if_pos hp, hrun]
    · obtain ⟨next, parents', h', hrun⟩ := pinPath_calls h hargs.1.1 hargs.1.2 hp
      obtain ⟨next', seen', parents'', h'', hsub, hrest, hrun'⟩ := pinArgs_calls h' hargs.2
      obtain ⟨hp', hsub⟩ := List.cons_subset.mp hsub
      refine ⟨next ++ next', seen', parents'', by rwa [← List.append_assoc], hsub,
        List.forall_mem_cons.mpr ⟨hp', hrest⟩, fun σ pinParent pinArg => ?_⟩
      rw [Callbacks.pinArgs, if_neg hp, hrun, List.forM_append, hrun' σ pinParent pinArg]

/-- The calls `calls` pin the paths of `cmd` in their order. -/
structure PinOrder (cmd : ValidatedCommand D) (calls : List (PinCall D)) : Prop where
  /-- Exactly the ancestors of the paths are pinned as such, each once. -/
  parents_iff : ∀ a, .parent a ∈ calls ↔ ∃ p ∈ pathsOf cmd, Ancestor a p.path
  parents_once : (parentCalls calls).Nodup
  /-- Exactly the paths are pinned, each once, through a descriptor opened for it. -/
  paths_iff : ∀ q, (∃ fd, .arg fd q ∈ calls) ↔ ∃ p ∈ pathsOf cmd, p.path = q
  paths_once : (argCalls calls).Nodup
  arg_of : ∀ fd p, .arg fd p ∈ calls → ⟨p, fd⟩ ∈ pathsOf cmd
  /-- Every call comes after those of the ancestors of its path. -/
  after : ∀ front c rest, calls = front ++ c :: rest → ∀ a, Ancestor a c.path → .parent a ∈ front

theorem PinnedSoFar.order {cmd : ValidatedCommand D} (h : PinnedSoFar (pathsOf cmd) calls seen parents)
    (hall : ∀ p ∈ pathsOf cmd, p.path ∈ seen) : PinOrder cmd calls where
  parents_iff a := by
    refine ⟨fun ha => h.parent_of a ((h.parents_iff a).mp ha), ?_⟩
    intro ⟨p, hp, ha⟩
    obtain ⟨fd, hcall⟩ := (h.paths_iff p.path).mpr (hall p hp)
    obtain ⟨front, rest, rfl⟩ := List.append_of_mem hcall
    exact List.mem_append_left _ (h.after front _ rest rfl a ha)
  parents_once := h.parents_once
  paths_iff q := by
    refine ⟨fun ⟨fd, hcall⟩ => ⟨_, h.arg_of fd q hcall, rfl⟩, ?_⟩
    intro ⟨p, hp, hq⟩
    exact (h.paths_iff q).mpr (hq ▸ hall p hp)
  paths_once := h.paths_once
  arg_of := h.arg_of
  after := h.after

/-- Calls that all succeed, from one state to another. -/
inductive Makes (perform : PinCall D → EStateM Error σ Unit) : List (PinCall D) → σ → σ → Prop
  | done {s} : Makes perform [] s s
  | call {c calls s s' s''} : (perform c).run s = .ok () s' → Makes perform calls s' s'' →
      Makes perform (c :: calls) s s''

/-- All calls are made, or the first that fails is the last. -/
theorem forM_makes {perform : PinCall D → EStateM Error σ Unit} : ∀ {calls : List (PinCall D)} {s : σ},
    (∃ s', Makes perform calls s s' ∧ (forM calls perform).run s = .ok () s') ∨
    ∃ front c rest s' e s'', calls = front ++ c :: rest ∧ Makes perform front s s' ∧
      (perform c).run s' = .error e s'' ∧ (forM calls perform).run s = .error e s''
  | [], s => .inl ⟨s, .done, rfl⟩
  | c :: calls, s => by
    rw [List.forM_cons, EStateM.run_bind]
    cases hc : (perform c).run s with
    | error e s' => exact .inr ⟨[], c, calls, s, e, s', rfl, .done, hc, rfl⟩
    | ok _ s' =>
      dsimp only
      rcases @forM_makes perform calls s' with ⟨s'', hmakes, hrun⟩ |
        ⟨front, c', rest, s₁, e, s₂, rfl, hmakes, hfail, hrun⟩
      · exact .inl ⟨s'', .call hc hmakes, hrun⟩
      · exact .inr ⟨c :: front, c', rest, s₁, e, s₂, rfl, .call hc hmakes, hfail, hrun⟩

/-- **The calls of a run are in order**, and the run makes them up to the first
that fails: what is left is what that one left, and its error. The loop over
each path's ancestors ends. -/
theorem pinCalls_order {cmd : ValidatedCommand D} (hcanon : ∀ p ∈ pathsOf cmd, Canonical p.path) :
    (∀ p ∈ pathsOf cmd, p.path ≠ ['/'] → ∃ chain, ParentLoop p.path chain ∧ parentChain p.path = .ok chain) ∧
    ∃ calls : List (PinCall D), PinOrder cmd calls ∧
      ∀ (σ : Type) (pinParent : Str → EStateM Error σ Unit) (pinArg : D → Str → EStateM Error σ Unit) (s : σ),
        (∃ s', Makes (PinCall.perform pinParent pinArg) calls s s' ∧
          (Callbacks.pinValidatedPathArgumentsWith cmd pinParent pinArg).run s = .ok () s') ∨
        ∃ front c rest s' e s'', calls = front ++ c :: rest ∧ Makes (PinCall.perform pinParent pinArg) front s s' ∧
          (c.perform pinParent pinArg).run s' = .error e s'' ∧
          (Callbacks.pinValidatedPathArgumentsWith cmd pinParent pinArg).run s = .error e s'' := by
  constructor
  · intro p hp hroot
    obtain ⟨chain, hloop, hchain, -, -⟩ := parentChain_canonical (hcanon p hp) hroot
    exact ⟨chain, hloop, hchain⟩
  · have hbinary : cmd.binary ∈ pathsOf cmd := List.mem_cons_self
    obtain ⟨next, parents, h, hrun⟩ :=
      pinPath_calls PinnedSoFar.start hbinary (hcanon _ hbinary) (List.not_mem_nil)
    obtain ⟨next', seen, parents', h', hsub, hargs, hrun'⟩ :=
      pinArgs_calls h fun p hp => ⟨List.mem_cons_of_mem _ hp, hcanon p (List.mem_cons_of_mem _ hp)⟩
    refine ⟨_, h'.order (List.forall_mem_cons.mpr ⟨hsub List.mem_cons_self, hargs⟩), fun σ pinParent pinArg s => ?_⟩
    have heq : Callbacks.pinValidatedPathArgumentsWith cmd pinParent pinArg =
        forM ([] ++ next ++ next') (PinCall.perform pinParent pinArg) := by
      rw [Callbacks.pinValidatedPathArgumentsWith, hrun, List.nil_append, List.forM_append, hrun' σ pinParent pinArg]
    rw [heq]
    exact forM_makes

theorem pinCalls_order_dev : ∃ calls, PinOrder (lsCommand "/dev") calls := by
  have hcanon : ∀ p ∈ pathsOf (lsCommand "/dev"), Canonical p.path := by
    refine List.forall_mem_cons.mpr ⟨⟨["bin", "ls"], by decide, by decide⟩, ?_⟩
    exact List.forall_mem_singleton.mpr ⟨["dev"], by decide, by decide⟩
  exact (pinCalls_order hcanon).2.imp fun _ h => h.1

/-- What the callbacks write down of a command with a repeated path. -/
example : (Callbacks.pinValidatedPathArgumentsWith
      { lsCommand "/etc/ssl" with args := [.path ⟨"/etc/ssl", []⟩, .path ⟨"/etc", []⟩, .path ⟨"/etc/ssl", []⟩] }
      (fun p => modify (· ++ [p])) fun _ p => modify (· ++ [p])).run ([] : List Str) =
    .ok () ["/bin", "/bin/ls", "/etc", "/etc/ssl", "/etc"] := by
  rfl

end SecureSudoers
