/-
Runs of a system that takes one event at a time: `step s e` is the state after
`e`, if `e` can happen in `s`.

`Run step ok` are the runs all of whose steps meet the condition `ok`. What one
step keeps a run keeps (`Run.invariant`), and a rank that each driving event
lowers brings a run with enough of them to the goal (`Run.leads_to`). Where each
step keeps, drops or adds a fact, `holds_foldl` says when it outlasts them all.
-/
import Mathlib.Data.List.Count
import Mathlib.Data.List.Infix

namespace Runs

variable {S E : Type}

/-- The runs from a state, with their events. -/
inductive Run (step : S → E → Option S) (ok : S → E → Prop) : S → List E → S → Prop where
  | nil {s : S} : Run step ok s [] s
  | cons {s t u : S} {e : E} {es : List E} : ok s e → step s e = some t → Run step ok t es u →
      Run step ok s (e :: es) u

variable {step : S → E → Option S} {ok : S → E → Prop} {s t : S} {es : List E}

/-- What holds at first and is kept by every step holds at the end. -/
theorem Run.invariant (h : Run step ok s es t) (Inv : S → Prop) (hinit : Inv s)
    (hstep : ∀ s e t, Inv s → ok s e → step s e = some t → Inv t) : Inv t := by
  induction h with
  | nil => exact hinit
  | cons hok hs _ ih => exact ih (hstep _ _ _ hinit hok hs)

/-- A run under a condition is one under any weaker condition. -/
theorem Run.mono {ok' : S → E → Prop} (h : Run step ok s es t) (hweaker : ∀ s e, ok s e → ok' s e) :
    Run step ok' s es t := by
  induction h with
  | nil => exact .nil
  | cons hok hstep _ ih => exact .cons (hweaker _ _ hok) hstep ih

/-- A run avoids the states that meet `P`, or comes to one. -/
theorem Run.visits (P : S → Prop) (h : Run step ok s es t) : Run step (fun s e => ok s e ∧ ¬P s) s es t ∨
    ∃ front back u, es = front ++ back ∧ Run step ok s front u ∧ P u ∧ Run step ok u back t := by
  induction h with
  | nil => exact .inl .nil
  | @cons s t u e es hok hstep hrest ih =>
    by_cases hs : P s
    · exact .inr ⟨[], e :: es, s, rfl, .nil, hs, .cons hok hstep hrest⟩
    · obtain havoids | ⟨front, back, v, rfl, hfront, hv, hback⟩ := ih
      · exact .inl (.cons ⟨hok, hs⟩ hstep havoids)
      · exact .inr ⟨e :: front, back, v, rfl, .cons hok hstep hfront, hv, hback⟩

/-- A step from `Inv` reaches the goal or stays in `Inv`, without raising the
rank, and lowers it where its event drives the system. -/
def Ranked (step : S → E → Option S) (ok : S → E → Prop) (Inv Goal : S → Prop) (drives : E → Bool)
    (rank : S → Nat) : Prop :=
  ∀ s e t, Inv s → ok s e → step s e = some t →
    Goal t ∨ (Inv t ∧ rank t ≤ rank s ∧ (drives e = true → rank t < rank s))

/-- **The ranking rule**: with more driving events than the rank the run has
reached the goal, whatever else happens in between. -/
theorem Run.leads_to {Inv Goal : S → Prop} {drives : E → Bool} {rank : S → Nat}
    (hrank : Ranked step ok Inv Goal drives rank)
    (hgoal : ∀ s e t, Goal s → ok s e → step s e = some t → Goal t) (h : Run step ok s es t) :
    Inv s → rank s < es.countP drives → Goal t := by
  induction h with
  | nil =>
    intro _ hlen
    exact absurd hlen (Nat.not_lt_zero _)
  | @cons s t u e es hok hstep hrest ih =>
    intro hinv hlen
    obtain hg | ⟨hinv', hle, hlt⟩ := hrank s e t hinv hok hstep
    · exact hrest.invariant Goal hg hgoal
    · refine ih hinv' ?_
      rw [List.countP_cons] at hlen
      split at hlen
      · next hd =>
        have := hlt hd
        omega
      · omega

/-- The state after the events, if they can happen and meet the condition. -/
def play (step : S → E → Option S) (ok : S → E → Bool) : List E → S → Option S
  | [], s => some s
  | e :: es, s => if ok s e then (step s e).bind (play step ok es) else none

theorem run_of_play {ok : S → E → Bool} : ∀ {es : List E} {s t : S}, play step ok es s = some t →
    Run step (fun s e => ok s e = true) s es t
  | [], _, _, h => by
    cases h
    exact .nil
  | e :: es, s, t, h => by
    unfold play at h
    split at h
    · next hok =>
      obtain ⟨s', hstep, hplay⟩ := Option.bind_eq_some_iff.mp h
      exact .cons hok hstep (run_of_play hplay)
    · cases h

/-! ## What a sequence of steps drops and adds -/

section Regained
variable {step : S → E → S} {holds : S → Prop} {drops adds : S → E → Prop} {s : S} {es : List E}

/-- After a step that drops there is one that adds, or it adds itself. -/
def Regained (step : S → E → S) (drops adds : S → E → Prop) (s : S) (es : List E) : Prop :=
  ∀ front e, front ++ [e] <+: es → drops (front.foldl step s) e →
    ∃ front' e', front <+: front' ∧ front' ++ [e'] <+: es ∧ adds (front'.foldl step s) e'

theorem regained_concat {e : E} : Regained step drops adds s (es ++ [e]) ↔
    (Regained step drops adds s es ∧ ¬drops (es.foldl step s) e) ∨ adds (es.foldl step s) e := by
  constructor
  · intro h
    by_cases hadd : adds (es.foldl step s) e
    · exact .inr hadd
    -- what is regained is regained before the last step, which adds nothing
    have hearlier : ∀ front e', front ++ [e'] <+: es ++ [e] → drops (front.foldl step s) e' →
        ∃ front' e', front <+: front' ∧ front' ++ [e'] <+: es ∧ adds (front'.foldl step s) e' := by
      intro front e' hfront hdrop
      obtain ⟨front', e'', hle, hfront', hadd'⟩ := h front e' hfront hdrop
      rcases List.prefix_concat_iff.mp hfront' with heq | hin
      · obtain ⟨rfl, he⟩ := List.append_inj' heq rfl
        cases he
        exact absurd hadd' hadd
      · exact ⟨front', e'', hle, hin, hadd'⟩
    refine .inl ⟨?_, fun hdrop => ?_⟩
    · intro front e' hfront
      exact hearlier front e' (hfront.trans (List.prefix_append es [e]))
    · obtain ⟨front', e', hle, hin, -⟩ := hearlier es e List.prefix_rfl hdrop
      have hlen := hle.length_le
      have hlen' := hin.length_le
      simp at hlen'
      omega
  · intro h front e' hfront hdrop
    rcases h with ⟨hes, hlast⟩ | hadd
    · rcases List.prefix_concat_iff.mp hfront with heq | hin
      · obtain ⟨rfl, he⟩ := List.append_inj' heq rfl
        cases he
        exact absurd hdrop hlast
      · obtain ⟨front', e'', hle, hin', hadd⟩ := hes front e' hin hdrop
        exact ⟨front', e'', hle, hin'.trans (List.prefix_append es [e]), hadd⟩
    · refine ⟨es, e, ?_, List.prefix_rfl, hadd⟩
      rcases List.prefix_concat_iff.mp hfront with heq | hin
      · obtain ⟨rfl, -⟩ := List.append_inj' heq rfl
        exact List.prefix_rfl
      · exact (List.prefix_append front [e']).trans hin

/-- **What held at first holds at the end** exactly if each step that drops it is made up for. -/
theorem holds_foldl (hstep : ∀ s e, holds (step s e) ↔ (holds s ∧ ¬drops s e) ∨ adds s e) (h : holds s) :
    holds (es.foldl step s) ↔ Regained step drops adds s es := by
  induction es using List.reverseRecOn with
  | nil =>
    refine iff_of_true h ?_
    intro front e hfront
    simp at hfront
  | append_singleton es e ih => rw [List.foldl_append, List.foldl_cons, List.foldl_nil, hstep, ih, regained_concat]

end Regained
end Runs
