/-
The capability sets of a Linux process in its user namespace, and what it can do
to them.

A program it executes, with whatever file capabilities, and a call of its own
give a process no capability that is not permitted, inheritable or in the
bounding set (`Step.sources`), as long as it stays in its user namespace. In one
that it makes or enters below it has them all, towards that and what is below
(`not_capable_above`).
-/
import Mathlib.Data.Finset.Basic
import Mathlib.Data.Finset.Erase
import Mathlib.Data.List.Infix
import Mathlib.Logic.Relation

namespace Capabilities

open Relation

variable {Cap : Type} [DecidableEq Cap]

/-- The sets of a process. -/
structure Creds (Cap : Type) [DecidableEq Cap] where
  permitted : Finset Cap
  effective : Finset Cap
  inheritable : Finset Cap
  bounding : Finset Cap
  ambient : Finset Cap
  effective_subset : effective ⊆ permitted
  ambient_subset : ambient ⊆ permitted ∩ inheritable

/-- What a program file brings. A privileged one has capabilities or changes the
user; for root the sets are full. -/
structure FileCaps (Cap : Type) where
  permitted : Finset Cap
  inheritable : Finset Cap
  effective : Bool
  privileged : Bool

namespace Creds

/-- `execve`. -/
def exec (c : Creds Cap) (file : FileCaps Cap) : Creds Cap :=
  let ambient := if file.privileged then ∅ else c.ambient
  let permitted := (c.inheritable ∩ file.inheritable) ∪ (file.permitted ∩ c.bounding) ∪ ambient
  have hinheritable : ambient ⊆ c.inheritable := by
    unfold ambient
    split
    · exact Finset.empty_subset _
    · exact c.ambient_subset.trans Finset.inter_subset_right
  { permitted := permitted
    effective := if file.effective then permitted else ambient
    inheritable := c.inheritable
    bounding := c.bounding
    ambient := ambient
    effective_subset := by
      split
      · exact Finset.Subset.refl _
      · exact Finset.subset_union_right
    ambient_subset := Finset.subset_inter Finset.subset_union_right hinheritable }

/-- `capset`. -/
def capset (c : Creds Cap) (permitted effective inheritable : Finset Cap) (heffective : effective ⊆ permitted) :
    Creds Cap where
  permitted := permitted
  effective := effective
  inheritable := inheritable
  bounding := c.bounding
  ambient := c.ambient ∩ (permitted ∩ inheritable)
  effective_subset := heffective
  ambient_subset := Finset.inter_subset_right

/-- `PR_CAPBSET_DROP`. -/
def dropBounding (c : Creds Cap) (cap : Cap) : Creds Cap := { c with bounding := c.bounding.erase cap }

/-- Without some capabilities in the bounding set. -/
def without (c : Creds Cap) (caps : Finset Cap) : Creds Cap := { c with bounding := c.bounding \ caps }

theorem without_empty {c : Creds Cap} : c.without ∅ = c := by
  rw [without, Finset.sdiff_empty]

theorem dropBounding_without {c : Creds Cap} {cap : Cap} {caps : Finset Cap} :
    (c.dropBounding cap).without caps = c.without (insert cap caps) := by
  have h : c.bounding.erase cap \ caps = c.bounding \ insert cap caps := by
    ext d
    simp only [Finset.mem_sdiff, Finset.mem_erase, Finset.mem_insert, not_or]
    exact ⟨fun h => ⟨h.1.2, h.1.1, h.2⟩, fun h => ⟨⟨h.2.1, h.1⟩, h.2.2⟩⟩
  simp only [without, dropBounding, h]

/-- `PR_CAP_AMBIENT_RAISE`. -/
def raiseAmbient (c : Creds Cap) (cap : Cap) (h : cap ∈ c.permitted ∩ c.inheritable) : Creds Cap :=
  { c with
    ambient := insert cap c.ambient
    ambient_subset := Finset.insert_subset h c.ambient_subset }

/-- `PR_CAP_AMBIENT_LOWER`. -/
def lowerAmbient (c : Creds Cap) (cap : Cap) : Creds Cap :=
  { c with
    ambient := c.ambient.erase cap
    ambient_subset := (Finset.erase_subset _ _).trans c.ambient_subset }

/-- The effective user becomes root. -/
def becomeRoot (c : Creds Cap) : Creds Cap :=
  { c with
    effective := c.permitted
    effective_subset := Finset.Subset.refl _ }

/-- No user is root any more. -/
def leaveRoot (c : Creds Cap) : Creds Cap :=
  { c with
    permitted := ∅
    effective := ∅
    ambient := ∅
    effective_subset := Finset.Subset.refl _
    ambient_subset := Finset.empty_subset _ }

/-- The capabilities of the three sets that others come from. -/
def sources (c : Creds Cap) : Finset Cap := c.permitted ∪ c.inheritable ∪ c.bounding

theorem mem_sources {c : Creds Cap} {cap : Cap} :
    cap ∈ c.sources ↔ cap ∈ c.permitted ∨ cap ∈ c.inheritable ∨ cap ∈ c.bounding := by
  simp only [sources, Finset.mem_union, or_assoc]

end Creds

/-- What a process can do to its sets. -/
inductive Step (c : Creds Cap) : Creds Cap → Prop where
  | exec (file : FileCaps Cap) : Step c (c.exec file)
  | capset {permitted effective inheritable : Finset Cap} (heffective : effective ⊆ permitted) :
      permitted ⊆ c.permitted → inheritable ⊆ c.inheritable ∪ c.bounding →
      Step c (c.capset permitted effective inheritable heffective)
  | dropBounding (cap : Cap) : Step c (c.dropBounding cap)
  | raiseAmbient {cap : Cap} (h : cap ∈ c.permitted ∩ c.inheritable) : Step c (c.raiseAmbient cap h)
  | lowerAmbient (cap : Cap) : Step c (c.lowerAmbient cap)
  | becomeRoot : Step c c.becomeRoot
  | leaveRoot : Step c c.leaveRoot

variable {c c' : Creds Cap} {cap : Cap}

theorem sources_exec {file : FileCaps Cap} : (c.exec file).sources ⊆ c.sources := by
  intro cap hcap
  have hambient : ∀ {b : Bool}, cap ∈ (if b then ∅ else c.ambient) → cap ∈ c.permitted := by
    intro b h
    cases b with
    | true => simp at h
    | false => exact (Finset.mem_inter.mp (c.ambient_subset h)).1
  simp only [Creds.mem_sources, Creds.exec, Finset.mem_union, Finset.mem_inter] at hcap ⊢
  obtain ((h | h) | h) | h | h := hcap
  · exact .inr (.inl h.1)
  · exact .inr (.inr h.2)
  · exact .inl (hambient h)
  · exact .inr (.inl h)
  · exact .inr (.inr h)

/-- **No step adds a source.** -/
theorem Step.sources (h : Step c c') : c'.sources ⊆ c.sources := by
  cases h with
  | exec file => exact sources_exec
  | capset heffective hpermitted hinheritable =>
    intro cap hcap
    obtain h | h | h := Creds.mem_sources.mp hcap
    · exact Creds.mem_sources.mpr (.inl (hpermitted h))
    · obtain h | h := Finset.mem_union.mp (hinheritable h)
      · exact Creds.mem_sources.mpr (.inr (.inl h))
      · exact Creds.mem_sources.mpr (.inr (.inr h))
    · exact Creds.mem_sources.mpr (.inr (.inr h))
  | dropBounding cap => exact Finset.union_subset_union_right (Finset.erase_subset _ _)
  | leaveRoot => exact Finset.union_subset_union_left (Finset.union_subset_union_left (Finset.empty_subset _))
  | raiseAmbient | lowerAmbient | becomeRoot => exact Finset.Subset.refl _

/-! ## User namespaces -/

/-- A process in a user namespace: the way down to that from the first. -/
structure NsProcess (N Cap : Type) [DecidableEq Cap] where
  ns : List N
  creds : Creds Cap

/-- Every capability, as the first process of a namespace has them. -/
def Creds.full (all : Finset Cap) : Creds Cap where
  permitted := all
  effective := all
  inheritable := ∅
  bounding := all
  ambient := ∅
  effective_subset := Finset.Subset.refl _
  ambient_subset := Finset.empty_subset _

variable {N : Type}

/-- The process has the capability towards a namespace: its own or one below, by its
effective set or as the owner of the one below its own on the way. -/
def Capable (owned : List N → Prop) (p : NsProcess N Cap) (ns : List N) (cap : Cap) : Prop :=
  p.ns <+: ns ∧ (cap ∈ p.creds.effective ∨ ∃ n, owned (p.ns ++ [n]) ∧ p.ns ++ [n] <+: ns)

/-- What a process can do, also with its user namespace; `admin` lets it enter another. -/
inductive UserStep (all : Finset Cap) (admin : Cap) (p : NsProcess N Cap) : NsProcess N Cap → Prop where
  | own {creds : Creds Cap} : Step p.creds creds → UserStep all admin p ⟨p.ns, creds⟩
  | unshare (n : N) : UserStep all admin p ⟨p.ns ++ [n], .full all⟩
  | setns {owned : List N → Prop} {ns : List N} : ns ≠ p.ns → Capable owned p ns admin →
      UserStep all admin p ⟨ns, .full all⟩

/-- In the namespace without a source of capabilities, or in one below it. -/
def Confined (home : List N) (p : NsProcess N Cap) : Prop :=
  home <+: p.ns ∧ (p.ns = home → p.creds.sources = ∅)

theorem Confined.capable {home ns : List N} {p : NsProcess N Cap} {owned : List N → Prop} (h : Confined home p)
    (hcap : Capable owned p ns cap) : home <+: ns ∧ ns ≠ home := by
  obtain ⟨hbelow, heffective⟩ := hcap
  refine ⟨h.1.trans hbelow, fun hsame => ?_⟩
  subst hsame
  have hns : p.ns = ns := hbelow.eq_of_length_le h.1.length_le
  obtain hin | ⟨n, -, hn⟩ := heffective
  · have hsource : cap ∈ p.creds.sources := Creds.mem_sources.mpr (.inl (p.creds.effective_subset hin))
    rw [h.2 hns] at hsource
    simp at hsource
  · have hlen := hn.length_le
    rw [hns, List.length_append, List.length_singleton] at hlen
    omega

theorem UserStep.confined {all : Finset Cap} {admin : Cap} {home : List N} {p p' : NsProcess N Cap}
    (h : UserStep all admin p p') (hp : Confined home p) : Confined home p' := by
  cases h with
  | own hstep => exact ⟨hp.1, fun hns => Finset.subset_empty.mp (hp.2 hns ▸ hstep.sources)⟩
  | unshare n =>
    refine ⟨hp.1.trans (List.prefix_append ..), fun hns => ?_⟩
    have hlen := hp.1.length_le
    rw [← hns, List.length_append, List.length_singleton] at hlen
    omega
  | setns _ hcap =>
    obtain ⟨hbelow, hne⟩ := hp.capable hcap
    exact ⟨hbelow, fun hns => absurd hns hne⟩

/-- **A process without a source of capabilities comes to none towards its
namespace**, nor towards any that is not below it. -/
theorem not_capable_above {all : Finset Cap} {admin : Cap} {p p' : NsProcess N Cap} (hnone : p.creds.sources = ∅)
    (h : ReflTransGen (UserStep all admin) p p') : Confined p.ns p' := by
  induction h with
  | refl => exact ⟨List.prefix_rfl, fun _ => hnone⟩
  | tail _ hstep ih => exact hstep.confined ih

/-- Where there is no source there is nothing. -/
theorem eq_empty_of_sources (h : c.sources = ∅) :
    c.permitted = ∅ ∧ c.effective = ∅ ∧ c.inheritable = ∅ ∧ c.bounding = ∅ ∧ c.ambient = ∅ := by
  have hnone : ∀ s ⊆ c.sources, s = ∅ := fun s hs => Finset.subset_empty.mp (h ▸ hs)
  have hpermitted : c.permitted ⊆ c.sources := fun _ hcap => Creds.mem_sources.mpr (.inl hcap)
  refine ⟨hnone _ hpermitted, hnone _ (c.effective_subset.trans hpermitted), ?_, ?_, ?_⟩
  · exact hnone _ fun _ hcap => Creds.mem_sources.mpr (.inr (.inl hcap))
  · exact hnone _ fun _ hcap => Creds.mem_sources.mpr (.inr (.inr hcap))
  · exact hnone _ ((c.ambient_subset.trans Finset.inter_subset_left).trans hpermitted)

end Capabilities
