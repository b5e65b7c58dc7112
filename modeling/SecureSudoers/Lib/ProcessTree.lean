/-
Processes below a root that adopts orphans. A process enters the tree by a fork
inside it, as a child or as a sibling of the process that forks. It leaves by its
exit, which hands its children to a living process above it or to the root, and
by the wait of its parent.

So each process has a way up to the root through living ones (`Rooted`), which
every step keeps: a tree without children of the root is empty
(`Rooted.eq_none`). A child of the root stays one until the root itself waits
for it (`Moves.child`).
-/
import Mathlib.Data.List.Chain
import Mathlib.Logic.Relation

namespace ProcessTree

open Relation

variable {Pid : Type}

/-- What is known of a process: its parent, and whether it has exited and is still to be waited for. -/
structure Entry (Pid : Type) where
  parent : Pid
  zombie : Bool := false
  deriving DecidableEq

/-- The processes below a root. -/
abbrev Processes (Pid : Type) := Pid → Option (Entry Pid)

namespace Processes

variable [DecidableEq Pid]

def set (t : Processes Pid) (p : Pid) (e : Option (Entry Pid)) : Processes Pid := fun q => if q = p then e else t q

/-- The process is there and has not exited. -/
def Alive (t : Processes Pid) (p : Pid) : Prop := ∃ e, t p = some e ∧ e.zombie = false

/-- `a` is above `p`: its parent, the parent of that one, and so on. -/
inductive Above (t : Processes Pid) (a : Pid) : Pid → Prop where
  | parent {p : Pid} {e : Entry Pid} : t p = some e → e.parent = a → Above t a p
  | up {p : Pid} {e : Entry Pid} : t p = some e → Above t a e.parent → Above t a p

/-- The exit of `p`, which hands its children to `heir`. -/
def exit (t : Processes Pid) (p heir : Pid) : Processes Pid := fun q =>
  (t q).map fun e => { parent := if e.parent = p then heir else e.parent, zombie := e.zombie || q == p }

end Processes

variable [DecidableEq Pid] {root : Pid} {t t' : Processes Pid} {p q a : Pid} {e : Entry Pid} {n : Nat}

/-- What the processes of the tree do. The root adopts, but does nothing itself. -/
inductive Moves (root : Pid) (t : Processes Pid) : Processes Pid → Prop where
  | fork {p child : Pid} : t.Alive p → t child = none → child ≠ root → Moves root t (t.set child (some ⟨p, false⟩))
  /-- `clone` with `CLONE_PARENT`. -/
  | sibling {p child : Pid} {e : Entry Pid} : t p = some e → e.zombie = false → t child = none → child ≠ root →
      Moves root t (t.set child (some ⟨e.parent, false⟩))
  | exit {p heir : Pid} : t.Alive p → heir = root ∨ (t.Alive heir ∧ t.Above heir p) → Moves root t (t.exit p heir)
  | wait {p : Pid} {e : Entry Pid} : t p = some e → e.zombie = true → e.parent ≠ root → Moves root t (t.set p none)

/-- The processes move, or the root waits for a child that has exited. -/
inductive Step (root : Pid) (t : Processes Pid) : Processes Pid → Prop where
  | moves {t' : Processes Pid} : Moves root t t' → Step root t t'
  | reap {p : Pid} {e : Entry Pid} : t p = some e → e.zombie = true → e.parent = root → Step root t (t.set p none)

/-- The root has forked its first child. -/
def spawned (root child : Pid) : Processes Pid := Processes.set (fun _ => none) child (some ⟨root, false⟩)

/-! ## The way to the root -/

/-- `p` is `n` processes below a child of the root, all of those above it living. -/
inductive Level (root : Pid) (t : Processes Pid) : Nat → Pid → Prop where
  | child {p : Pid} {e : Entry Pid} : t p = some e → e.parent = root → Level root t 0 p
  | under {n : Nat} {p : Pid} {e : Entry Pid} : t p = some e → e.parent ≠ root → t.Alive e.parent →
      Level root t n e.parent → Level root t (n + 1) p

/-- Every process has a way to the root, which is not among them. -/
structure Rooted (root : Pid) (t : Processes Pid) : Prop where
  root_out : t root = none
  level : ∀ p, t p ≠ none → ∃ n, Level root t n p

section Order
omit [DecidableEq Pid]

theorem Level.unique {m : Nat} (h : Level root t n p) (h' : Level root t m p) : n = m := by
  induction h generalizing m with
  | child hp hroot =>
    cases h' with
    | child => rfl
    | under hp' hne => simp_all
  | under hp hne _ _ ih =>
    cases h' with
    | child hp' hroot => simp_all
    | under hp' _ _ h =>
      rw [hp] at hp'
      cases hp'
      rw [ih h]

/-- What is above a process is the root or nearer to it. -/
theorem Level.above (h : Level root t n p) (hout : t root = none) (ha : t.Above a p) :
    a = root ∨ ∃ m < n, Level root t m a := by
  induction ha generalizing n with
  | parent hp he =>
    subst he
    cases h with
    | child hp' hroot =>
      rw [hp] at hp'
      cases hp'
      exact .inl hroot
    | under hp' _ _ h =>
      rw [hp] at hp'
      cases hp'
      exact .inr ⟨_, Nat.lt_succ_self _, h⟩
  | up hp hup ih =>
    cases h with
    | child hp' hroot =>
      rw [hp] at hp'
      cases hp'
      -- nothing is above the root
      rw [hroot] at hup
      cases hup <;> simp_all
    | under hp' _ _ h =>
      rw [hp] at hp'
      cases hp'
      obtain hroot | ⟨m, hm, hlevel⟩ := ih h
      · exact .inl hroot
      · exact .inr ⟨m, by omega, hlevel⟩

/-- The topmost process on a way is a child of the root. -/
theorem Level.top (h : Level root t n p) : ∃ q e, t q = some e ∧ e.parent = root := by
  induction h with
  | child hp hroot => exact ⟨_, _, hp, hroot⟩
  | under _ _ _ _ ih => exact ih

/-- **A tree without children of the root is empty.** -/
theorem Rooted.eq_none (h : Rooted root t) (hnone : ∀ p e, t p = some e → e.parent ≠ root) : t p = none := by
  cases hp : t p with
  | none => rfl
  | some e =>
    obtain ⟨n, hlevel⟩ := h.level p (by simp [hp])
    obtain ⟨q, e', hq, hroot⟩ := hlevel.top
    exact absurd hroot (hnone q e' hq)

/-- The parent of a process is the root, or it lives. -/
theorem Rooted.parent (h : Rooted root t) (hp : t p = some e) : e.parent = root ∨ t.Alive e.parent := by
  obtain ⟨n, hn⟩ := h.level p (by simp [hp])
  cases hn with
  | child hp' hroot =>
    rw [hp] at hp'
    cases hp'
    exact .inl hroot
  | under hp' _ halive _ =>
    rw [hp] at hp'
    cases hp'
    exact .inr halive

end Order

/-! ## The steps -/

namespace Processes

@[simp] theorem set_self {e : Option (Entry Pid)} : t.set p e p = e := if_pos rfl

theorem set_ne {e : Option (Entry Pid)} (h : q ≠ p) : t.set p e q = t q := if_neg h

theorem exit_eq_none {heir : Pid} : t.exit p heir q = none ↔ t q = none := Option.map_eq_none_iff

/-- A process other than the one that exits stays as it is, but for its parent. -/
theorem Alive.exit {heir : Pid} (h : t.Alive q) (hne : q ≠ p) : (t.exit p heir).Alive q := by
  obtain ⟨e, he, hz⟩ := h
  exact ⟨_, by rw [Processes.exit, he]; rfl, by simp [hz, hne]⟩

end Processes

theorem Level.fork {child : Pid} (h : Level root t n q) (hchild : t child = none) :
    Level root (t.set child (some e)) n q := by
  have hother : ∀ {r : Pid} {e' : Entry Pid}, t r = some e' → t.set child (some e) r = some e' := by
    intro r e' hr
    rw [Processes.set_ne, hr]
    rintro rfl
    simp [hchild] at hr
  induction h with
  | child hp hroot => exact .child (hother hp) hroot
  | under hp hne halive _ ih =>
    obtain ⟨e', he', hz⟩ := halive
    exact .under (hother hp) hne ⟨e', hother he', hz⟩ ih

/-- A new process is below the root, or below a living process. -/
theorem Rooted.add {child parent : Pid} (h : Rooted root t) (hparent : parent = root ∨ t.Alive parent)
    (hchild : t child = none) (hne : child ≠ root) : Rooted root (t.set child (some ⟨parent, false⟩)) := by
  refine ⟨?_, fun q hq => ?_⟩
  · rw [Processes.set_ne hne.symm, h.root_out]
  · by_cases hqc : q = child
    · subst hqc
      obtain hroot | ⟨e, he, hz⟩ := hparent
      · exact ⟨0, .child Processes.set_self hroot⟩
      · have hp : parent ≠ q := by
          rintro rfl
          simp [hchild] at he
        have hroot : parent ≠ root := by
          rintro rfl
          simp [h.root_out] at he
        obtain ⟨n, hn⟩ := h.level parent (by simp [he])
        exact ⟨n + 1, .under Processes.set_self hroot ⟨e, by rw [Processes.set_ne hp, he], hz⟩ (hn.fork hchild)⟩
    · rw [Processes.set_ne hqc] at hq
      obtain ⟨n, hn⟩ := h.level q hq
      exact ⟨n, hn.fork hchild⟩

/-- A process on its way up meets the heir before it meets who has exited. -/
theorem Level.exit {heir : Pid} {k : Nat} (hp : Level root t k p) (hroot : p ≠ root)
    (hheir : heir = root ∨ (t.Alive heir ∧ ∃ m < k, Level root t m heir)) :
    ∀ {n : Nat} {q : Pid}, Level root t n q → ∃ m, Level root (t.exit p heir) m q := by
  intro n
  induction n using Nat.strongRecOn with
  | ind n ih =>
  intro q hq
  have hentry : ∀ {r : Pid} {e : Entry Pid}, t r = some e → e.parent ≠ p →
      t.exit p heir r = some ⟨e.parent, e.zombie || r == p⟩ := by
    intro r e hr hne
    rw [Processes.exit, hr, Option.map_some, if_neg hne]
  have horphan : ∀ {r : Pid} {e : Entry Pid}, t r = some e → e.parent = p →
      t.exit p heir r = some ⟨heir, e.zombie || r == p⟩ := by
    intro r e hr heq
    rw [Processes.exit, hr, Option.map_some, if_pos heq]
  cases hq with
  | child hq hparent => exact ⟨0, .child (hentry hq (by rw [hparent]; exact hroot.symm)) hparent⟩
  | @under n' _ e hq hne halive hlevel =>
    by_cases heq : e.parent = p
    · rw [heq] at hlevel
      have hn := hp.unique hlevel
      by_cases hr : heir = root
      · exact ⟨0, .child (horphan hq heq) hr⟩
      · obtain rfl | ⟨halive', m, hm, hheir'⟩ := hheir
        · exact absurd rfl hr
        have hhp : heir ≠ p := by
          rintro rfl
          have := hp.unique hheir'
          omega
        obtain ⟨m', hm'⟩ := ih m (by omega) hheir'
        exact ⟨m' + 1, .under (horphan hq heq) hr (halive'.exit hhp) hm'⟩
    · obtain ⟨m', hm'⟩ := ih n' (Nat.lt_succ_self _) hlevel
      exact ⟨m' + 1, .under (hentry hq heq) hne (halive.exit heq) hm'⟩

theorem Rooted.exit {heir : Pid} (h : Rooted root t) (halive : t.Alive p)
    (hheir : heir = root ∨ (t.Alive heir ∧ t.Above heir p)) : Rooted root (t.exit p heir) := by
  obtain ⟨e, he, hz⟩ := halive
  have hroot : p ≠ root := by
    rintro rfl
    simp [h.root_out] at he
  obtain ⟨k, hk⟩ := h.level p (by simp [he])
  have hnear : heir = root ∨ (t.Alive heir ∧ ∃ m < k, Level root t m heir) := by
    obtain rfl | ⟨ha, habove⟩ := hheir
    · exact .inl rfl
    · obtain hr | hm := hk.above h.root_out habove
      · exact .inl hr
      · exact .inr ⟨ha, hm⟩
  refine ⟨Processes.exit_eq_none.mpr h.root_out, fun q hq => ?_⟩
  obtain ⟨n, hn⟩ := h.level q (fun hnone => hq (Processes.exit_eq_none.mpr hnone))
  exact Level.exit hk hroot hnear hn

theorem Level.wait (h : Level root t n q) (hp : t p = some e) (hz : e.zombie = true) (hne : q ≠ p) :
    Level root (t.set p none) n q := by
  induction h with
  | child hq hroot => exact .child (by rw [Processes.set_ne hne, hq]) hroot
  | @under n' q' e' hq hne' halive _ ih =>
    obtain ⟨e₂, he₂, hz₂⟩ := halive
    -- nothing is below what has exited
    have hpp : e'.parent ≠ p := by
      intro heq
      rw [heq, hp] at he₂
      cases he₂
      simp [hz] at hz₂
    exact .under (by rw [Processes.set_ne hne, hq]) hne' ⟨e₂, by rw [Processes.set_ne hpp, he₂], hz₂⟩ (ih hpp)

theorem Rooted.wait (h : Rooted root t) (hp : t p = some e) (hz : e.zombie = true) : Rooted root (t.set p none) := by
  refine ⟨?_, fun q hq => ?_⟩
  · by_cases hr : root = p
    · rw [hr, Processes.set_self]
    · rw [Processes.set_ne hr, h.root_out]
  · by_cases hne : q = p
    · rw [hne, Processes.set_self] at hq
      exact absurd rfl hq
    · rw [Processes.set_ne hne] at hq
      obtain ⟨n, hn⟩ := h.level q hq
      exact ⟨n, hn.wait hp hz hne⟩

theorem Rooted.moves (h : Rooted root t) (hm : Moves root t t') : Rooted root t' := by
  cases hm with
  | fork halive hchild hne => exact h.add (.inr halive) hchild hne
  | sibling hp _ hchild hne => exact h.add (h.parent hp) hchild hne
  | exit halive hheir => exact h.exit halive hheir
  | wait hp hz _ => exact h.wait hp hz

theorem Rooted.step (h : Rooted root t) (hs : Step root t t') : Rooted root t' := by
  cases hs with
  | moves hm => exact h.moves hm
  | reap hp hz _ => exact h.wait hp hz

/-- **Whatever the processes do, each keeps a way to the root.** -/
theorem Rooted.steps (h : Rooted root t) (hs : ReflTransGen (Step root) t t') : Rooted root t' := by
  induction hs with
  | refl => exact h
  | tail _ hs ih => exact ih.step hs

theorem rooted_spawned {child : Pid} (h : child ≠ root) : Rooted root (spawned root child) := by
  refine ⟨Processes.set_ne h.symm, fun p hp => ⟨0, ?_⟩⟩
  by_cases hc : p = child
  · subst hc
    exact .child Processes.set_self rfl
  · rw [spawned, Processes.set_ne hc] at hp
    exact absurd rfl hp

/-- `p` is a child of `root`. -/
def Processes.Child (t : Processes Pid) (root p : Pid) : Prop := ∃ e, t p = some e ∧ e.parent = root

/-- **A child of the root stays one** while the root does not wait for it. -/
theorem Moves.child (hm : Moves root t t') (hout : t root = none) (h : t.Child root p) : t'.Child root p := by
  obtain ⟨e, he, hroot⟩ := h
  cases hm with
  | fork _ hchild _ | sibling _ _ hchild _ =>
    refine ⟨e, ?_, hroot⟩
    rw [Processes.set_ne, he]
    rintro rfl
    simp [hchild] at he
  | @exit q heir halive hheir =>
    obtain ⟨eq, heq, -⟩ := halive
    have hne : e.parent ≠ q := by
      rintro hq
      rw [← hq, hroot, hout] at heq
      cases heq
    exact ⟨⟨e.parent, e.zombie || p == q⟩, by rw [Processes.exit, he, Option.map_some, if_neg hne], hroot⟩
  | wait hq hz hne =>
    refine ⟨e, ?_, hroot⟩
    rw [Processes.set_ne, he]
    rintro rfl
    rw [he] at hq
    cases hq
    exact hne hroot

theorem Rooted.chain {later : List (Processes Pid)} (hchain : (t :: later).IsChain (Moves root)) (h : Rooted root t)
    (hp : t.Child root p) : ∀ u ∈ t :: later, u.Child root p := by
  induction later generalizing t with
  | nil => simpa using hp
  | cons u later ih =>
    obtain ⟨hm, hrest⟩ := List.isChain_cons_cons.mp hchain
    rw [List.forall_mem_cons]
    exact ⟨hp, ih hrest (h.moves hm) (hm.child h.root_out hp)⟩

/-- In an empty tree nothing happens. -/
theorem Step.of_none (h : ∀ p, t p = none) : ¬Step root t t' := by
  intro hs
  cases hs with
  | moves hm =>
    cases hm with
    | fork halive => obtain ⟨e, he, -⟩ := halive; simp [h] at he
    | sibling hp => simp [h] at hp
    | exit halive => obtain ⟨e, he, -⟩ := halive; simp [h] at he
    | wait hp => simp [h] at hp
  | reap hp => simp [h] at hp

theorem steps_none (h : ∀ p, t p = none) (hs : ReflTransGen (Step root) t t') : t' = t := by
  obtain rfl | ⟨u, hu, -⟩ := hs.cases_head
  · rfl
  · exact absurd hu (Step.of_none h)

end ProcessTree
