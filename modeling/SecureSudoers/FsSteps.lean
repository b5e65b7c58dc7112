/-
The walk of `fs.rs` one system call at a time, so that another process can be
let in between two of them: open the root, open the next component, `fstat`
what was opened, read a symlink's target, read back the final descriptor's
path. `sys` is the walk's own step in the file system of the moment.

On a file system that stays as it is the steps end, after finitely many, with
the result of `checkPath` (`checkPath_steps`).
-/
import Mathlib.Logic.Function.Iterate
import SecureSudoers.Fs

namespace SecureSudoers

variable {D : Type}

/-- Where a walk is between two system calls; `links` counts the symlinks followed. -/
inductive Walk (D : Type) where
  /-- About to open the root. -/
  | start (path : Str) (links : Nat)
  /-- At the head of the loop, holding `currentFd`. -/
  | next (path : Str) (currentFd : D) (currentCanonical : Str) (rest : List Component) (links : Nat)
  /-- `openat` has returned `fd`. -/
  | opened (path : Str) (fd : D) (currentCanonical compStr : Str) (isNormal : Bool) (rest : List Component)
      (links : Nat)
  /-- `fstat` has said that `fd` is a symlink. -/
  | link (fd : D) (currentCanonical : Str) (rest : List Component) (links : Nat)
  | done (result : Except Error (SecurePath D))

/-- How `check_path` begins. -/
def Walk.begin (arg : Str) : Walk D :=
  if Path.isAbsolute arg then .start arg 0
  else .done (.error (.security ("Security failure: path must be absolute: " ++ arg)))

/-- One system call of the walk, and what the code does up to the next one. -/
def Walk.sys (fs : FileSystem D) (blockedPaths : List Str) : Walk D → Walk D
  | .start path links => .next path fs.root ['/'] ((Path.components path).drop 1) links
  | .next _ currentFd _ [] _ => .done (finish fs currentFd)
  | .next path currentFd currentCanonical (comp :: rest) links =>
    match comp.opened? with
    | none => .next path currentFd currentCanonical rest links
    | some (compStr, isNormal) =>
      match openComponent fs path currentFd compStr with
      | .ok fd => .opened path fd currentCanonical compStr isNormal rest links
      | .error e => .done (.error e)
  | .opened path fd currentCanonical compStr isNormal rest links =>
    if isNormal && fs.isSymlink fd then
      if MAX_SYMLINK_DEPTH < links + 1 then .done (.error (.security "Security failure: too many symlinks"))
      else .link fd currentCanonical rest (links + 1)
    else match checkBlocked (advance currentCanonical compStr isNormal) blockedPaths with
      | .ok () => .next path fd (advance currentCanonical compStr isNormal) rest links
      | .error e => .done (.error e)
  | .link fd currentCanonical rest links =>
    match readLinkFromFd fs fd with
    | .ok target => .start (rewritten currentCanonical target rest) links
    | .error e => .done (.error e)
  | .done result => .done result

/-- The steps end in `result`. -/
def Walk.Ends (fs : FileSystem D) (blockedPaths : List Str) (w : Walk D) (result : Except Error (SecurePath D)) :
    Prop :=
  ∃ n, (Walk.sys fs blockedPaths)^[n] w = .done result

variable {fs : FileSystem D} {blockedPaths : List Str}

theorem Walk.Ends.done {result : Except Error (SecurePath D)} :
    Walk.Ends fs blockedPaths (.done result) result := ⟨0, rfl⟩

theorem Walk.Ends.step {w : Walk D} {result : Except Error (SecurePath D)}
    (h : Walk.Ends fs blockedPaths (w.sys fs blockedPaths) result) : Walk.Ends fs blockedPaths w result := by
  obtain ⟨n, hn⟩ := h
  exact ⟨n + 1, by rw [Function.iterate_succ_apply, hn]⟩

/-- What follows a symlink when `left` more may be followed. -/
def again (fs : FileSystem D) (blockedPaths : List Str) : Nat → Option (Str → Except Error (SecurePath D))
  | 0 => none
  | left + 1 => some (resolveSecurely fs blockedPaths left)

theorem resolveSecurely_eq {left : Nat} {path : Str} :
    resolveSecurely fs blockedPaths left path =
      walk fs blockedPaths path (again fs blockedPaths left) fs.root ['/'] ((Path.components path).drop 1) := by
  cases left <;> rfl

/-- One more component in `walk`. -/
theorem walk_cons {path : Str} {again : Option (Str → Except Error (SecurePath D))} {fd : D} {canonical : Str}
    {comp : Component} {rest : List Component} {compStr : Str} {isNormal : Bool}
    (h : comp.opened? = some (compStr, isNormal)) :
    walk fs blockedPaths path again fd canonical (comp :: rest) = (do
      let fd ← openComponent fs path fd compStr
      if isNormal && fs.isSymlink fd then
        match again with
        | none => .error (.security "Security failure: too many symlinks")
        | some again => do
          let linkTarget ← readLinkFromFd fs fd
          again (rewritten canonical linkTarget rest)
      else do
        checkBlocked (advance canonical compStr isNormal) blockedPaths
        walk fs blockedPaths path again fd (advance canonical compStr isNormal) rest) := by
  rewrite [walk, h]
  rfl

theorem walk_skip {path : Str} {again : Option (Str → Except Error (SecurePath D))} {fd : D} {canonical : Str}
    {comp : Component} {rest : List Component} (h : comp.opened? = none) :
    walk fs blockedPaths path again fd canonical (comp :: rest) =
      walk fs blockedPaths path again fd canonical rest := by
  simp only [walk, h]

/-- The steps from the head of the loop end as `walk` does, once the restarts they may make do. -/
theorem Walk.next_ends {path : Str} {left links : Nat} (hl : links + left = MAX_SYMLINK_DEPTH)
    (hagain : ∀ left' path, left = left' + 1 →
      Walk.Ends fs blockedPaths (.start path (links + 1)) (resolveSecurely fs blockedPaths left' path)) :
    ∀ {rest : List Component} {fd : D} {canonical : Str},
      Walk.Ends fs blockedPaths (.next path fd canonical rest links)
        (walk fs blockedPaths path (again fs blockedPaths left) fd canonical rest)
  | [], _, _ => .step .done
  | comp :: rest, fd, canonical => by
    apply Walk.Ends.step
    cases ho : comp.opened? with
    | none =>
      rw [walk_skip ho]
      simp only [Walk.sys, ho]
      exact Walk.next_ends hl hagain
    | some o =>
      obtain ⟨compStr, isNormal⟩ := o
      rw [walk_cons ho]
      simp only [Walk.sys, ho]
      cases openComponent fs path fd compStr with
      | error e => exact .done
      | ok fd' =>
        apply Walk.Ends.step
        simp only [Walk.sys, bind, Except.bind]
        split
        · cases left with
          | zero =>
            simp only [Nat.add_zero] at hl
            rw [if_pos (by omega)]
            exact .done
          | succ left =>
            rw [if_neg (by omega)]
            apply Walk.Ends.step
            simp only [Walk.sys, again]
            cases readLinkFromFd fs fd' with
            | error e => exact .done
            | ok target => exact hagain left _ rfl
        · cases checkBlocked (advance canonical compStr isNormal) blockedPaths with
          | error e => exact .done
          | ok _ => exact Walk.next_ends hl hagain

theorem Walk.start_ends : ∀ {left links : Nat} {path : Str}, links + left = MAX_SYMLINK_DEPTH →
    Walk.Ends fs blockedPaths (.start path links) (resolveSecurely fs blockedPaths left path)
  | 0, _, _, h => by
    rw [resolveSecurely_eq]
    exact .step (Walk.next_ends h fun _ _ he => by cases he)
  | left + 1, _, _, h => by
    rw [resolveSecurely_eq]
    refine .step (Walk.next_ends h fun left' path' he => ?_)
    cases he
    exact Walk.start_ends (by omega)

/-- **The steps of `check_path` end**, and with its result. -/
theorem checkPath_steps {arg : Str} {context : ValidationContext} :
    Walk.Ends fs blockedPaths (Walk.begin arg) (checkPath fs arg context blockedPaths) := by
  unfold Walk.begin checkPath
  split
  · exact Walk.start_ends rfl
  · exact .done

end SecureSudoers
