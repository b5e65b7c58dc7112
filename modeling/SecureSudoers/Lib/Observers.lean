/-
Processes that share a state, and others that only look at it, each in turn.

Looking does not disturb: what the processes do, they do unobserved as well
(`Watches.reaches`). Where the shared state only grows, in a preorder of one's
own, what an observer holds was seen in a state below the present one
(`Watches.seen`), and what it has seen since some moment in one above the state
of that moment (`Watches.since`).
-/
import SecureSudoers.Lib.Interleaving

namespace Interleaving

variable {ι κ S L O E F : Type} [DecidableEq κ]

/-- Processes, and where each of those is that look. -/
structure Watched (ι κ S L O : Type) where
  procs : Procs ι S L
  watch : κ → O

/-- Observer `k` has gone to `o`. -/
def Watched.look (c : Watched ι κ S L O) (k : κ) (o : O) : Watched ι κ S L O :=
  { c with watch := Function.update c.watch k o }

@[simp] theorem Watched.look_procs (c : Watched ι κ S L O) (k : κ) (o : O) : (c.look k o).procs = c.procs := rfl

@[simp] theorem Watched.look_watch_same (c : Watched ι κ S L O) (k : κ) (o : O) : (c.look k o).watch k = o :=
  Function.update_self ..

theorem Watched.look_watch_other {c : Watched ι κ S L O} {k k' : κ} (h : k' ≠ k) (o : O) :
    (c.look k o).watch k' = c.watch k' :=
  Function.update_of_ne h ..

/-- What an observer goes to on an event, if it can. -/
abbrev See (κ S O F : Type) := κ → F → S → O → Option O

variable [DecidableEq ι]

inductive Watches (act : Act ι S L E) (ok : Procs ι S L → ι → E → Prop) (see : See κ S O F)
    (c : Watched ι κ S L O) : Watched ι κ S L O → Prop where
  | refl : Watches act ok see c c
  | act {d : Watched ι κ S L O} {i : ι} {e : E} {s : S} {l : L} : Watches act ok see c d → ok d.procs i e →
      act i e d.procs.shared (d.procs.place i) = some (s, l) →
        Watches act ok see c { d with procs := d.procs.move i s l }
  | see {d : Watched ι κ S L O} {k : κ} {f : F} {o : O} : Watches act ok see c d →
      see k f d.procs.shared (d.watch k) = some o →
        Watches act ok see c (d.look k o)

variable {act : Act ι S L E} {ok : Procs ι S L → ι → E → Prop} {see : See κ S O F} {c d : Watched ι κ S L O}

theorem Watches.reaches (h : Watches act ok see c d) : Reaches act ok c.procs d.procs := by
  induction h with
  | refl => exact .refl
  | act _ hok hact ih => exact .step ih hok hact
  | see _ _ ih => exact ih

/-- A run that nobody looks at. -/
theorem Watches.of_reaches {p : Procs ι S L} (h : Reaches act ok c.procs p) :
    Watches act ok see c { c with procs := p } := by
  induction h with
  | refl => exact .refl
  | step _ hok hact ih => exact .act ih hok hact

theorem Watches.trans {d' : Watched ι κ S L O} (h : Watches act ok see c d) (h' : Watches act ok see d d') :
    Watches act ok see c d' := by
  induction h' with
  | refl => exact h
  | act _ hok hact ih => exact .act ih hok hact
  | see _ hsee ih => exact .see ih hsee

/-- The steps keep `Inv`, and where it holds the shared state grows. -/
structure Grows (act : Act ι S L E) (ok : Procs ι S L → ι → E → Prop) (Inv : Procs ι S L → Prop)
    (r : S → S → Prop) : Prop where
  refl : ∀ s, r s s
  trans : ∀ s t u, r s t → r t u → r s u
  keeps : ∀ {d : Procs ι S L} {i : ι} {e : E} {s : S} {l : L}, Inv d → ok d i e →
    act i e d.shared (d.place i) = some (s, l) → Inv (d.move i s l)
  grows : ∀ {d : Procs ι S L} {i : ι} {e : E} {s : S} {l : L}, Inv d → ok d i e →
    act i e d.shared (d.place i) = some (s, l) → r d.shared s

variable {Inv : Procs ι S L → Prop} {r : S → S → Prop}

theorem Grows.inv (g : Grows act ok Inv r) (h : Watches act ok see c d) (hinit : Inv c.procs) :
    Inv d.procs ∧ r c.procs.shared d.procs.shared := by
  induction h with
  | refl => exact ⟨hinit, g.refl _⟩
  | act _ hok hact ih => exact ⟨g.keeps ih.1 hok hact, g.trans _ _ _ ih.2 (g.grows ih.1 hok hact)⟩
  | see _ _ ih => exact ih

/-- What is held was seen, and the state has only grown since. -/
theorem Watches.seen (h : Watches act ok see c d) (g : Grows act ok Inv r) (hinit : Inv c.procs)
    {P : O → S → Prop} (hstart : ∀ k, P (c.watch k) c.procs.shared)
    (hlater : ∀ {o s t}, r s t → P o s → P o t)
    (hsee : ∀ {p : Procs ι S L} {k f o o'}, Inv p → see k f p.shared o = some o' → P o p.shared → P o' p.shared) :
    ∀ k, P (d.watch k) d.procs.shared := by
  induction h with
  | refl => exact hstart
  | act h hok hact ih =>
    intro k
    exact hlater (g.grows (g.inv h hinit).1 hok hact) (ih k)
  | @see d k f o h hlook ih =>
    intro k'
    by_cases hk : k' = k
    · subst hk
      rw [Watched.look_watch_same]
      exact hsee (g.inv h hinit).1 hlook (ih _)
    · rw [Watched.look_watch_other hk]
      exact ih k'

/-- What is seen since `c` is seen in states that have grown from there. -/
theorem Watches.since (h : Watches act ok see c d) (g : Grows act ok Inv r) (hinit : Inv c.procs) {k : κ}
    {Q : O → Prop} (hstart : Q (c.watch k))
    (hsee : ∀ {p : Procs ι S L} {f o o'}, Inv p → r c.procs.shared p.shared → see k f p.shared o = some o' → Q o → Q o') :
    Q (d.watch k) := by
  induction h with
  | refl => exact hstart
  | act _ _ _ ih => exact ih
  | @see d k' f o h hlook ih =>
    by_cases hk : k = k'
    · subst hk
      rw [Watched.look_watch_same]
      obtain ⟨hinv, hgrown⟩ := g.inv h hinit
      exact hsee hinv hgrown hlook ih
    · rw [Watched.look_watch_other hk]
      exact ih

end Interleaving
