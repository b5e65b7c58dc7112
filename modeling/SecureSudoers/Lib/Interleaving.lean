/-
Processes that share a state and take turns: each is at a place of its own, and
what it does next is a function of an event, the shared state and that place.

`Reaches act ok` are the runs whose steps all meet the condition `ok`, which may
look at the configuration before the step. An invariant is shown by one step at
a time (`Reaches.invariant`), and `play` computes the run of a schedule.
-/
import Mathlib.Logic.Function.Basic

namespace Interleaving

variable {ι S L E : Type} [DecidableEq ι]

/-- The shared state, and where each process is. -/
structure Procs (ι S L : Type) where
  shared : S
  place : ι → L

/-- Process `i` has gone to `l` and left the shared state as `s`. -/
def Procs.move (c : Procs ι S L) (i : ι) (s : S) (l : L) : Procs ι S L := ⟨s, Function.update c.place i l⟩

@[simp] theorem Procs.move_shared (c : Procs ι S L) (i : ι) (s : S) (l : L) : (c.move i s l).shared = s := rfl

@[simp] theorem Procs.move_place_same (c : Procs ι S L) (i : ι) (s : S) (l : L) : (c.move i s l).place i = l :=
  Function.update_self ..

theorem Procs.move_place_other {c : Procs ι S L} {i j : ι} (h : j ≠ i) (s : S) (l : L) :
    (c.move i s l).place j = c.place j :=
  Function.update_of_ne h ..

/-- What a process does on an event, if it can. -/
abbrev Act (ι S L E : Type) := ι → E → S → L → Option (S × L)

/-- The runs from `c` all of whose steps meet `ok`. -/
inductive Reaches (act : Act ι S L E) (ok : Procs ι S L → ι → E → Prop) (c : Procs ι S L) :
    Procs ι S L → Prop where
  | refl : Reaches act ok c c
  | step {d : Procs ι S L} {i : ι} {e : E} {s : S} {l : L} : Reaches act ok c d → ok d i e →
      act i e d.shared (d.place i) = some (s, l) → Reaches act ok c (d.move i s l)

variable {act : Act ι S L E} {ok : Procs ι S L → ι → E → Prop} {c d : Procs ι S L}

/-- What holds at first and is kept by every step holds throughout. -/
theorem Reaches.invariant (h : Reaches act ok c d) (Inv : Procs ι S L → Prop) (hinit : Inv c)
    (hstep : ∀ (d : Procs ι S L) (i : ι) (e : E) (s : S) (l : L), Inv d → ok d i e →
      act i e d.shared (d.place i) = some (s, l) → Inv (d.move i s l)) : Inv d := by
  induction h with
  | refl => exact hinit
  | step _ hok hact ih => exact hstep _ _ _ _ _ ih hok hact

theorem Reaches.trans {d' : Procs ι S L} (h : Reaches act ok c d) (h' : Reaches act ok d d') :
    Reaches act ok c d' := by
  induction h' with
  | refl => exact h
  | step _ hok hact ih => exact .step ih hok hact

/-- A run under a condition is one under a weaker one. -/
theorem Reaches.mono {ok' : Procs ι S L → ι → E → Prop} (h : Reaches act ok c d)
    (hok : ∀ d i e, ok d i e → ok' d i e) : Reaches act ok' c d := by
  induction h with
  | refl => exact .refl
  | step _ hstep hact ih => exact .step ih (hok _ _ _ hstep) hact

/-- The run of a schedule, if every event of it can happen in its turn. -/
def play (act : Act ι S L E) : List (ι × E) → Procs ι S L → Option (Procs ι S L)
  | [], c => some c
  | (i, e) :: schedule, c =>
    match act i e c.shared (c.place i) with
    | none => none
    | some (s, l) => play act schedule (c.move i s l)

/-- Who is not in the schedule stays where it is. -/
theorem place_of_play {j : ι} : ∀ {schedule : List (ι × E)} {c d : Procs ι S L}, play act schedule c = some d →
    (∀ e, (j, e) ∉ schedule) → d.place j = c.place j
  | [], _, _, h, _ => by rw [Option.some.inj h]
  | (i, e) :: schedule, c, d, h, hj => by
    unfold play at h
    split at h
    · cases h
    · have hji : j ≠ i := fun he => hj e (he ▸ List.mem_cons_self)
      rw [place_of_play h fun e hmem => hj e (List.mem_cons_of_mem _ hmem), Procs.move_place_other hji]

/-- A schedule that can be played is a run, under a condition its events always meet. -/
theorem reaches_of_play : ∀ {schedule : List (ι × E)} {c d : Procs ι S L},
    (∀ d i e, (i, e) ∈ schedule → ok d i e) → play act schedule c = some d → Reaches act ok c d
  | [], _, _, _, h => Option.some.inj h ▸ .refl
  | (i, e) :: schedule, c, d, hok, h => by
    unfold play at h
    split at h
    · cases h
    · rename_i s l hact
      have hrest := reaches_of_play (fun d i e hmem => hok d i e (List.mem_cons_of_mem _ hmem)) h
      exact Reaches.trans (.step .refl (hok c i e List.mem_cons_self) hact) hrest

end Interleaving
