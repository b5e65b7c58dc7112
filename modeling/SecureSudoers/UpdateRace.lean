/-
Several runs of `run_with_client` on one policy path, in steps: the serial in
place is compared, the old signature is read, the new signature is renamed, then
the policy, and the signature is put back where that fails. That can fail too, and
so can the reading of the serial in place, which skips the comparison.

No step holds a lock. Two runs can both pass the comparison, and their renames
can cross, which leaves the policy of one with the signature of the other
(`updates_cross`). `updates_agree` says what has to hold when a run renames its
signature for all of them to end well; `runWithClient_alone` relates the steps
to the whole function.
-/
import SecureSudoers.Lib.Interleaving
import SecureSudoers.NetworkUpdate

namespace SecureSudoers

open Interleaving

variable {ι : Type}

/-- The pair in place. -/
structure Installed where
  policy : Bytes
  sig : Option Bytes
  deriving DecidableEq, Repr

/-- A download that passed its checks, whose policy is read with its serial. -/
structure Offer (serialOf : Bytes → Option Int) where
  policyBytes : Bytes
  sigBytes : Bytes
  serial : Int
  reads : serialOf policyBytes = some serial

variable {serialOf : Bytes → Option Int}

def Offer.pair (o : Offer serialOf) : Installed := ⟨o.policyBytes, some o.sigBytes⟩

/-- How a run ends. -/
inductive UpdateOutcome where
  | ok
  /-- An error that leaves the pair. -/
  | err
  /-- An error that leaves the new signature beside the old policy. -/
  | torn
  /-- An error after both renames: what was immutable is so no more. -/
  | unlocked
  deriving DecidableEq, Repr

/-- Where a run is. -/
inductive Updating where
  | start
  | compared
  /-- The old signature is read. -/
  | prepared (previousSig : Option Bytes)
  /-- The new signature is in its place, the new policy not yet. -/
  | signed (previousSig : Option Bytes)
  /-- The policy could not be renamed. -/
  | refused (previousSig : Option Bytes)
  | returned (outcome : UpdateOutcome)
  deriving DecidableEq, Repr

inductive UpdateEvent where
  | compare
  /-- The policy in place cannot be read. -/
  | skip
  | prepare
  | persistSig
  | persistPolicy
  | policyFails
  | restore
  /-- The rollback fails before the signature is back. -/
  | rollbackFails
  /-- The policy is renamed, and `restore_immutable_if_needed` fails. -/
  | lockFails
  /-- A call before the signature is renamed fails. -/
  | fails
  deriving DecidableEq, Repr

/-- A step of run `i`. -/
def updateAct (offer : ι → Offer serialOf) : Act ι Installed Updating UpdateEvent := fun i event s place =>
  match event, place with
  | .compare, .start =>
    match (serialOf s.policy).filter fun serial => decide ((offer i).serial ≤ serial) with
    | some _ => some (s, .returned .err)
    | none => some (s, .compared)
  | .skip, .start => some (s, .compared)
  | .prepare, .compared => some (s, .prepared s.sig)
  | .persistSig, .prepared previousSig => some ({ s with sig := some (offer i).sigBytes }, .signed previousSig)
  | .persistPolicy, .signed _ => some ({ s with policy := (offer i).policyBytes }, .returned .ok)
  | .lockFails, .signed _ => some ({ s with policy := (offer i).policyBytes }, .returned .unlocked)
  | .policyFails, .signed previousSig => some (s, .refused previousSig)
  | .restore, .refused previousSig => some ({ s with sig := previousSig }, .returned .err)
  | .rollbackFails, .refused _ => some (s, .returned .torn)
  | .fails, .start | .fails, .compared | .fails, .prepared _ => some (s, .returned .err)
  | _, _ => none

/-- The run has renamed its signature and not returned; it would put this one back. -/
def Updating.Between : Updating → Option Bytes → Prop
  | .signed previousSig, sig | .refused previousSig, sig => previousSig = sig
  | _, _ => False

/-- The run has renamed both files and returned. -/
def Updating.Installs : Updating → Prop
  | .returned .ok | .returned .unlocked => True
  | _ => False

/-- The steps of run `i`, one by one. -/
inductive UpdateStep (offer : ι → Offer serialOf) (i : ι) (s : Installed) :
    UpdateEvent → Updating → Installed → Updating → Prop where
  /-- A step before the signature is renamed leaves the pair. -/
  | early {event : UpdateEvent} {place place' : Updating} : (∀ sig, ¬place.Between sig) →
      (∀ sig, ¬place'.Between sig) → (∀ outcome, place' = .returned outcome → outcome = .err) →
      (∀ outcome, place ≠ .returned outcome) → UpdateStep offer i s event place s place'
  | persistSig {previousSig : Option Bytes} : UpdateStep offer i s .persistSig (.prepared previousSig)
      { s with sig := some (offer i).sigBytes } (.signed previousSig)
  | persistPolicy {event : UpdateEvent} {previousSig : Option Bytes} {outcome : UpdateOutcome} :
      (outcome = .unlocked → event = .lockFails) → (Updating.returned outcome).Installs →
      UpdateStep offer i s event (.signed previousSig) { s with policy := (offer i).policyBytes } (.returned outcome)
  | policyFails {previousSig : Option Bytes} :
      UpdateStep offer i s .policyFails (.signed previousSig) s (.refused previousSig)
  | restore {previousSig : Option Bytes} : UpdateStep offer i s .restore (.refused previousSig)
      { s with sig := previousSig } (.returned .err)
  | rollbackFails {previousSig : Option Bytes} :
      UpdateStep offer i s .rollbackFails (.refused previousSig) s (.returned .torn)

theorem updateStep_of_act {offer : ι → Offer serialOf} {i : ι} {s s' : Installed} {event : UpdateEvent}
    {place place' : Updating} (h : updateAct offer i event s place = some (s', place')) :
    UpdateStep offer i s event place s' place' := by
  unfold updateAct at h
  split at h
  · split at h <;> cases h <;> exact .early (by simp [Updating.Between]) (by simp [Updating.Between]) (by simp) (by simp)
  · cases h
    exact .early (by simp [Updating.Between]) (by simp [Updating.Between]) (by simp) (by simp)
  · cases h
    exact .early (by simp [Updating.Between]) (by simp [Updating.Between]) (by simp) (by simp)
  · cases h
    exact .persistSig
  · cases h
    exact .persistPolicy (by simp) trivial
  · cases h
    exact .persistPolicy (fun _ => rfl) trivial
  · cases h
    exact .policyFails
  · cases h
    exact .restore
  · cases h
    exact .rollbackFails
  all_goals cases h
  all_goals exact .early (by simp [Updating.Between]) (by simp [Updating.Between]) (by simp) (by simp)

/-! ## Runs that do not cross -/

/-- A run renames its signature only while no other is between that step and its
return, the signature in place is the one it has read, and its serial is above
the one in place. -/
def InOrder (offer : ι → Offer serialOf) (c : Procs ι Installed Updating) (i : ι) : UpdateEvent → Prop
  | .persistSig => (∀ j sig, ¬(c.place j).Between sig) ∧ c.place i = .prepared c.shared.sig ∧
      ∀ serial, serialOf c.shared.policy = some serial → serial < (offer i).serial
  | _ => True

/-- Then, and no run leaves its signature without its policy, or its pair without its lock. -/
def InTurn (offer : ι → Offer serialOf) (c : Procs ι Installed Updating) (i : ι) (event : UpdateEvent) : Prop :=
  InOrder offer c i event ∧ event ≠ .rollbackFails ∧ event ≠ .lockFails

/-- The pair from before, or that of a run that has returned `Ok`. -/
def Settled (offer : ι → Offer serialOf) (before : Installed) (c : Procs ι Installed Updating) (p : Installed) : Prop :=
  p = before ∨ ∃ i, c.place i = .returned .ok ∧ p = (offer i).pair

/-- The pair from before, or that of a run that has renamed both files. -/
def Whole (offer : ι → Offer serialOf) (before : Installed) (c : Procs ι Installed Updating) (p : Installed) : Prop :=
  p = before ∨ ∃ i, (c.place i).Installs ∧ p = (offer i).pair

/-- The policy from before, or one that was offered. -/
def Known (offer : ι → Offer serialOf) (before : Installed) (policyBytes : Bytes) : Prop :=
  policyBytes = before.policy ∨ ∃ i, policyBytes = (offer i).policyBytes

/-- No serial in place before, and none of a run that has renamed both files, is above this one. -/
def Greatest (offer : ι → Offer serialOf) (before : Installed) (c : Procs ι Installed Updating) (serial : Int) : Prop :=
  (∀ old, serialOf before.policy = some old → old ≤ serial) ∧
    ∀ i, (c.place i).Installs → (offer i).serial ≤ serial

/-- No run has left its signature without its policy. -/
def Untorn (c : Procs ι Installed Updating) : Prop := ∀ i, c.place i ≠ .returned .torn

/-- The pair is whole, or one run has its new signature beside the policy of a
whole pair that it would restore. -/
structure UpdateInv (offer : ι → Offer serialOf) (before : Installed) (c : Procs ι Installed Updating) : Prop where
  quiet : Untorn c → (∀ i sig, ¬(c.place i).Between sig) → Whole offer before c c.shared
  between {i : ι} {sig : Option Bytes} : (c.place i).Between sig →
    (Untorn c → Whole offer before c ⟨c.shared.policy, sig⟩) ∧ c.shared.sig = some (offer i).sigBytes ∧
      ∀ serial, serialOf c.shared.policy = some serial → serial < (offer i).serial
  alone {i j : ι} {sig sig' : Option Bytes} : (c.place i).Between sig → (c.place j).Between sig' → i = j
  known : Known offer before c.shared.policy
  serial : ∃ serial, serialOf c.shared.policy = some serial ∧ Greatest offer before c serial

variable {offer : ι → Offer serialOf} {before : Installed} {c d : Procs ι Installed Updating} {i : ι}

theorem UpdateInv.of_start {serial : Int} (hstart : ∀ i, c.place i = .start)
    (hserial : serialOf c.shared.policy = some serial) : UpdateInv offer c.shared c := by
  have hnone : ∀ i sig, ¬(c.place i).Between sig := fun i sig h => by
    rw [hstart i] at h
    exact h
  refine ⟨fun _ _ => .inl rfl, fun {i sig} h => absurd h (hnone i sig), fun {i _ sig _} h => absurd h (hnone i sig),
    .inl rfl, serial, hserial, fun old hold => ?_, fun i hi => ?_⟩
  · rw [hserial] at hold
    cases hold
    exact le_refl _
  · rw [hstart i] at hi
    cases hi

variable [DecidableEq ι]

theorem Untorn.of_move {s : Installed} {place : Updating} (h : Untorn (c.move i s place))
    (hnot : c.place i ≠ .returned .torn) : Untorn c := by
  intro j
  by_cases hji : j = i
  · exact hji ▸ hnot
  · have := h j
    rwa [Procs.move_place_other hji] at this

theorem Whole.move {p s : Installed} {place : Updating} (h : Whole offer before c p)
    (hnot : ¬(c.place i).Installs) : Whole offer before (c.move i s place) p := by
  refine h.imp_right fun ⟨j, hj, hp⟩ => ⟨j, ?_, hp⟩
  have hji : j ≠ i := fun he => hnot (he ▸ hj)
  rwa [Procs.move_place_other hji]

theorem Greatest.move {s : Installed} {place : Updating} {serial : Int} (h : Greatest offer before c serial)
    (hplace : place.Installs → (offer i).serial ≤ serial) : Greatest offer before (c.move i s place) serial := by
  refine ⟨h.1, fun j hj => ?_⟩
  by_cases hji : j = i
  · subst hji
    rw [Procs.move_place_same] at hj
    exact hplace hj
  · rw [Procs.move_place_other hji] at hj
    exact h.2 j hj

/-- Who is between its two renames after a step of `i`. -/
theorem between_move {s : Installed} {place : Updating} {j : ι} {sig : Option Bytes}
    (h : ((c.move i s place).place j).Between sig) :
    (j = i ∧ place.Between sig) ∨ (j ≠ i ∧ (c.place j).Between sig) := by
  by_cases hji : j = i
  · subst hji
    rw [Procs.move_place_same] at h
    exact .inl ⟨rfl, h⟩
  · rw [Procs.move_place_other hji] at h
    exact .inr ⟨hji, h⟩

theorem UpdateInv.early (h : UpdateInv offer before c) {place : Updating} (hfrom : ∀ sig, ¬(c.place i).Between sig)
    (hto : ∀ sig, ¬place.Between sig) (hplace : ¬place.Installs) (hret : ∀ outcome, c.place i ≠ .returned outcome) :
    UpdateInv offer before (c.move i c.shared place) := by
  have hnot : ¬(c.place i).Installs := by
    cases hi : c.place i with
    | returned outcome => exact absurd hi (hret outcome)
    | start | compared | prepared | signed | refused => exact id
  have hback : ∀ {j sig}, ((c.move i c.shared place).place j).Between sig → (c.place j).Between sig := fun hj =>
    (between_move hj).elim (fun hi => absurd hi.2 (hto _)) (·.2)
  refine ⟨fun huntorn hnone => ?_, fun hj => ?_, fun hj hk => ?_, h.known, ?_⟩
  · refine (h.quiet (huntorn.of_move (hret _)) fun j sig hj => ?_).move hnot
    have hji : j ≠ i := fun he => hfrom sig (he ▸ hj)
    exact hnone j sig (by rwa [Procs.move_place_other hji])
  · obtain ⟨hwhole, hrest⟩ := h.between (hback hj)
    exact ⟨fun huntorn => (hwhole (huntorn.of_move (hret _))).move hnot, hrest⟩
  · exact h.alone (hback hj) (hback hk)
  · obtain ⟨serial, hserial, hgreatest⟩ := h.serial
    exact ⟨serial, hserial, hgreatest.move fun hi => absurd hi hplace⟩

theorem UpdateInv.persistSig (h : UpdateInv offer before c) {previousSig : Option Bytes}
    (hplace : c.place i = .prepared previousSig) (hok : InOrder offer c i .persistSig) :
    UpdateInv offer before (c.move i { c.shared with sig := some (offer i).sigBytes } (.signed previousSig)) := by
  obtain ⟨hnone, hread, habove⟩ := hok
  rw [hplace] at hread
  cases hread
  have hnot : ¬(c.place i).Installs := by simp [hplace, Updating.Installs]
  have honly : ∀ {j sig}, ((c.move i { c.shared with sig := some (offer i).sigBytes } (.signed c.shared.sig)).place
      j).Between sig → j = i ∧ c.shared.sig = sig := fun hj =>
    (between_move hj).elim id fun hother => absurd hother.2 (hnone _ _)
  refine ⟨fun _ hquiet => ?_, fun {j sig} hj => ?_, fun hj hk => (honly hj).1.trans (honly hk).1.symm, h.known, ?_⟩
  · exact absurd (by rw [Procs.move_place_same]; rfl) (hquiet i c.shared.sig)
  · obtain ⟨rfl, rfl⟩ := honly hj
    exact ⟨fun huntorn => (h.quiet (huntorn.of_move (by simp [hplace])) hnone).move hnot, rfl, habove⟩
  · obtain ⟨serial, hserial, hgreatest⟩ := h.serial
    exact ⟨serial, hserial, hgreatest.move fun hi => hi.elim⟩

/-- The run whose policy is renamed was the only one between its renames. -/
theorem UpdateInv.persistPolicy (h : UpdateInv offer before c) {previousSig : Option Bytes} {outcome : UpdateOutcome}
    (hplace : c.place i = .signed previousSig) (hinstalls : (Updating.returned outcome).Installs) :
    UpdateInv offer before (c.move i { c.shared with policy := (offer i).policyBytes } (.returned outcome)) := by
  have hbetween : (c.place i).Between previousSig := by rw [hplace]; rfl
  obtain ⟨-, hsig, habove⟩ := h.between hbetween
  have hnone : ∀ {j sig}, ¬((c.move i { c.shared with policy := (offer i).policyBytes } (.returned outcome)).place
      j).Between sig := fun hj =>
    (between_move hj).elim (fun hi => hi.2) fun hother => hother.1 (h.alone hother.2 hbetween)
  refine ⟨fun _ _ => .inr ⟨i, ?_, ?_⟩, fun hj => absurd hj hnone, fun hj => absurd hj hnone, .inr ⟨i, rfl⟩, ?_⟩
  · rwa [Procs.move_place_same]
  · exact congrArg (Installed.mk (offer i).policyBytes) hsig
  · obtain ⟨serial, hserial, hold, hothers⟩ := h.serial
    have hlt := habove serial hserial
    refine ⟨(offer i).serial, (offer i).reads, Greatest.move ⟨fun old ho => ?_, fun j hj => ?_⟩ fun _ => le_refl _⟩
    · have := hold old ho
      omega
    · have := hothers j hj
      omega

theorem UpdateInv.policyFails (h : UpdateInv offer before c) {previousSig : Option Bytes}
    (hplace : c.place i = .signed previousSig) :
    UpdateInv offer before (c.move i c.shared (.refused previousSig)) := by
  have hback : ∀ {j sig}, ((c.move i c.shared (.refused previousSig)).place j).Between sig → (c.place j).Between sig := by
    intro j sig hj
    rcases between_move hj with ⟨rfl, hi⟩ | hother
    · rw [hplace]
      exact hi
    · exact hother.2
  have hnot : ¬(c.place i).Installs := by simp [hplace, Updating.Installs]
  refine ⟨fun _ hquiet => ?_, fun hj => ?_, fun hj hk => h.alone (hback hj) (hback hk), h.known, ?_⟩
  · exact absurd (by rw [Procs.move_place_same]; rfl) (hquiet i previousSig)
  · obtain ⟨hwhole, hrest⟩ := h.between (hback hj)
    exact ⟨fun huntorn => (hwhole (huntorn.of_move (by simp [hplace]))).move hnot, hrest⟩
  · obtain ⟨serial, hserial, hgreatest⟩ := h.serial
    exact ⟨serial, hserial, hgreatest.move fun hi => hi.elim⟩

/-- The signature that goes back is that of the policy in place; where it does not go back the run is torn. -/
theorem UpdateInv.rollback (h : UpdateInv offer before c) {previousSig sig : Option Bytes} {outcome : UpdateOutcome}
    (hplace : c.place i = .refused previousSig) (hinstalls : ¬(Updating.returned outcome).Installs)
    (hback : outcome ≠ .torn → sig = previousSig) :
    UpdateInv offer before (c.move i { c.shared with sig } (.returned outcome)) := by
  have hbetween : (c.place i).Between previousSig := by rw [hplace]; rfl
  have hnone : ∀ {j sig'}, ¬((c.move i { c.shared with sig } (.returned outcome)).place j).Between sig' :=
    fun hj => (between_move hj).elim (fun hi => hi.2) fun hother => hother.1 (h.alone hother.2 hbetween)
  have hnot : ¬(c.place i).Installs := by simp [hplace, Updating.Installs]
  refine ⟨fun huntorn _ => ?_, fun hj => absurd hj hnone, fun hj => absurd hj hnone, h.known, ?_⟩
  · have hreturned : outcome ≠ .torn := fun he => huntorn i (by rw [Procs.move_place_same, he])
    have hwhole := (h.between hbetween).1 (huntorn.of_move (by simp [hplace]))
    rw [hback hreturned]
    exact hwhole.move hnot
  · obtain ⟨serial, hserial, hgreatest⟩ := h.serial
    exact ⟨serial, hserial, hgreatest.move fun hi => absurd hi hinstalls⟩

theorem UpdateInv.step (h : UpdateInv offer before c) {event : UpdateEvent} {s : Installed} {place : Updating}
    (hok : InOrder offer c i event) (hstep : UpdateStep offer i c.shared event (c.place i) s place) :
    UpdateInv offer before (c.move i s place) := by
  generalize hplace : c.place i = old at hstep
  cases hstep with
  | early hfrom hto herr hret =>
    subst hplace
    refine h.early hfrom hto (fun hi => ?_) hret
    cases place with
    | returned outcome =>
      cases herr outcome rfl
      exact hi
    | start | compared | prepared | signed | refused => exact hi
  | persistSig => exact h.persistSig hplace hok
  | persistPolicy _ hinstalls => exact h.persistPolicy hplace hinstalls
  | policyFails => exact h.policyFails hplace
  | restore => exact h.rollback hplace id fun _ => rfl
  | rollbackFails => exact h.rollback hplace id fun hne => absurd rfl hne

/-- In turn, each run returns `Ok`, or an error that leaves the pair. -/
theorem returns_in_turn (hstart : ∀ i, c.place i = .start) (h : Reaches (updateAct offer) (InTurn offer) c d) :
    ∀ i, d.place i ≠ .returned .torn ∧ d.place i ≠ .returned .unlocked := by
  refine h.invariant (fun d => ∀ i, d.place i ≠ .returned .torn ∧ d.place i ≠ .returned .unlocked) (fun i => ?_) ?_
  · simp [hstart i]
  · intro d i event s place hd hok hact j
    by_cases hji : j = i
    · subst hji
      rw [Procs.move_place_same]
      have hstep := updateStep_of_act hact
      generalize d.place j = old at hstep
      cases hstep with
      | early _ _ herr _ =>
        refine ⟨fun he => ?_, fun he => ?_⟩
        · cases herr _ he
        · cases herr _ he
      | persistSig | policyFails | restore => simp
      | persistPolicy hlock hinstalls =>
        refine ⟨fun he => ?_, fun he => ?_⟩
        · cases he
          exact hinstalls
        · cases he
          exact hok.2.2 (hlock rfl)
      | rollbackFails => exact absurd rfl hok.2.1
    · rw [Procs.move_place_other hji]
      exact hd j

/-- **When every run that renamed its signature did so in its turn, then once all
have returned the pair in place is one that was offered or was there before, and
its serial is the greatest of the one from before and those of the runs that
returned `Ok`.** -/
theorem updates_agree {serial : Int} (hstart : ∀ i, c.place i = .start)
    (hserial : serialOf c.shared.policy = some serial) (h : Reaches (updateAct offer) (InTurn offer) c d)
    (hall : ∀ i, ∃ outcome, d.place i = .returned outcome) :
    Settled offer c.shared d d.shared ∧
      ∃ last, serialOf d.shared.policy = some last ∧ Greatest offer c.shared d last ∧
        (last = serial ∨ ∃ i, d.place i = .returned .ok ∧ last = (offer i).serial) := by
  have hinv : UpdateInv offer c.shared d := (h.mono fun _ _ _ hok => hok.1).invariant _ (.of_start hstart hserial)
    fun _ _ _ _ _ hinv hok hact => hinv.step hok (updateStep_of_act hact)
  have hreturns := returns_in_turn hstart h
  have hwhole : Whole offer c.shared d d.shared := by
    refine hinv.quiet (fun i => (hreturns i).1) fun i sig hi => ?_
    obtain ⟨outcome, hout⟩ := hall i
    rw [hout] at hi
    exact hi
  have hsettled : Settled offer c.shared d d.shared := by
    refine hwhole.imp_right fun ⟨i, hi, hpair⟩ => ⟨i, ?_, hpair⟩
    obtain ⟨outcome, hout⟩ := hall i
    rw [hout] at hi ⊢
    cases outcome with
    | ok => rfl
    | unlocked => exact absurd hout (hreturns i).2
    | err | torn => exact hi.elim
  obtain ⟨last, hlast, hgreatest⟩ := hinv.serial
  refine ⟨hsettled, last, hlast, hgreatest, hsettled.imp (fun hsame => ?_) fun ⟨i, hi, hpair⟩ => ⟨i, hi, ?_⟩⟩
  · rw [hsame, hserial] at hlast
    exact (Option.some.inj hlast).symm
  · rw [hpair, Offer.pair, (offer i).reads] at hlast
    exact (Option.some.inj hlast).symm

/-! ## One run alone -/

/-- The serial `run_with_client` compares with, of a file it can read. -/
def PolicyJson.readSerial (json : PolicyJson) (bytes : Bytes) : Option Int :=
  if Utf8.decode? bytes = none then none else (json.fromSlice bytes).toOption.map (·.serial)

/-- The pair of a directory, of which the policy is there. -/
def Holds (dest : Destination) (dir : Dir) (p : Installed) : Prop :=
  (visible (dir.lookup dest.name)).map Prod.fst = some p.policy ∧ (visible (dir.lookup dest.sigName)).map Prod.fst = p.sig

theorem currentSerial_holds {Key D : Type} {u : Updater Key D} {a : Attempt Key} {dir : Dir} {p : Installed}
    (hread : a.unreadable = false) (h : Holds u.dest dir p) : currentSerial u a dir = u.json.readSerial p.policy := by
  obtain ⟨hpolicy, -⟩ := h
  unfold currentSerial PolicyJson.readSerial
  cases hfile : dir.lookup u.dest.name with
  | none =>
    rw [hfile] at hpolicy
    cases hpolicy
  | some f =>
    rw [hfile] at hpolicy
    have hbytes : f.bytes = p.policy := Option.some.inj hpolicy
    simp [hread, hbytes]

/-- The steps of a run that is alone and whose serial is above the one in place. -/
theorem reaches_alone (o : Offer serialOf) {p : Installed} (habove : ∀ serial, serialOf p.policy = some serial →
    serial < o.serial) :
    Reaches (updateAct fun _ : Unit => o) (InTurn fun _ => o) ⟨p, fun _ => .start⟩
        (Procs.move (Procs.move ⟨p, fun _ => .start⟩ () p .compared) () p (.returned .err)) ∧
      ∃ d, Reaches (updateAct fun _ : Unit => o) (InTurn fun _ => o) ⟨p, fun _ => .start⟩ d ∧ d.shared = o.pair ∧
        d.place () = .returned .ok := by
  have hfilter : ((serialOf p.policy).filter fun serial => decide (o.serial ≤ serial)) = none := by
    refine Option.filter_eq_none_iff.mpr fun serial hserial => ?_
    have := habove serial hserial
    simp only [decide_eq_true_eq]
    omega
  have hcompared : Reaches (updateAct fun _ : Unit => o) (InTurn fun _ => o) ⟨p, fun _ => .start⟩
      (Procs.move ⟨p, fun _ => .start⟩ () p .compared) :=
    .step (e := UpdateEvent.compare) .refl ⟨trivial, by simp⟩ (by simp only [updateAct, hfilter])
  refine ⟨.step (e := UpdateEvent.fails) hcompared ⟨trivial, by simp⟩ rfl, ?_⟩
  have hprepared : Reaches (updateAct fun _ : Unit => o) (InTurn fun _ => o) ⟨p, fun _ => .start⟩
      (Procs.move (Procs.move ⟨p, fun _ => .start⟩ () p .compared) () p (.prepared p.sig)) :=
    .step (e := UpdateEvent.prepare) hcompared ⟨trivial, by simp⟩ rfl
  have hsigned : Reaches (updateAct fun _ : Unit => o) (InTurn fun _ => o) ⟨p, fun _ => .start⟩ _ :=
    .step (i := ()) (e := UpdateEvent.persistSig) hprepared ⟨⟨fun _ _ => id, rfl, habove⟩, by simp⟩ rfl
  exact ⟨_, .step (i := ()) (e := UpdateEvent.persistPolicy) hsigned ⟨trivial, by simp⟩ rfl, rfl, rfl⟩

/-- **What a run of the whole function leaves, its steps leave when no other run
takes one**; and where it returns `Ok`, so do they. -/
theorem runWithClient_alone {Key D : Type} {u : Updater Key D} {a : Attempt Key} {dir : Dir} {new : Download}
    {p : Installed} (o : Offer u.json.readSerial) (hdown : download u a = .ok new)
    (hpair : o.pair = ⟨new.policyBytes, some new.sigBytes⟩) (hserial : o.serial = new.policy.serial)
    (hread : a.unreadable = false) (hworks : a.faults.RollbackWorks) (hholds : Holds u.dest dir p) :
    ∃ d, Reaches (updateAct fun _ : Unit => o) (InTurn fun _ => o) ⟨p, fun _ => .start⟩ d ∧
      Holds u.dest (runWithClient u a dir).2 d.shared ∧
      ∃ outcome, d.place () = .returned outcome ∧ ((runWithClient u a dir).1 = .ok () → outcome = .ok) := by
  have hcurrent := currentSerial_holds hread hholds
  unfold runWithClient
  cases hcand : candidate u a dir with
  | error e =>
    have hfilter : ∃ serial, (u.json.readSerial p.policy).filter (fun serial => decide (o.serial ≤ serial)) = some serial := by
      rw [← Option.isSome_iff_exists, ← Option.ne_none_iff_isSome, ← hcurrent, hserial]
      intro hnone
      unfold candidate at hcand
      rw [hdown] at hcand
      simp only [bind, Except.bind, hnone] at hcand
      cases hcand
    obtain ⟨serial, hfilter⟩ := hfilter
    have hstep : updateAct (fun _ : Unit => o) () .compare p .start = some (p, .returned .err) := by
      simp only [updateAct, hfilter]
    exact ⟨_, .step (e := UpdateEvent.compare) .refl ⟨trivial, by simp⟩ hstep, hholds, .err, rfl, fun h => by cases h⟩
  | ok new' =>
    obtain ⟨hdown', habove⟩ := candidate_ok.mp hcand
    cases hdown.symm.trans hdown'
    obtain ⟨hfails, d, hdone, hshared, hplace⟩ := reaches_alone o (p := p) fun serial hs => by
      rw [hserial]
      exact habove serial (hcurrent.trans hs)
    rcases (installUpdate_leaves (Prod.eta _).symm).pair with ⟨hne, hpolicy, hsig⟩ | hnew
    · refine ⟨_, hfails, ⟨?_, ?_⟩, .err, rfl, fun hok => absurd hok hne⟩
      · exact (congrArg _ hpolicy).trans hholds.1
      · exact (congrArg _ (hsig hworks)).trans hholds.2
    · refine ⟨d, hdone, ?_, .ok, hplace, fun _ => rfl⟩
      rw [hshared, hpair]
      exact ⟨congrArg (fun pair => pair.1.map Prod.fst) hnew, congrArg (fun pair => pair.2.map Prod.fst) hnew⟩

/-! ## Two runs that cross -/

/-- The first octet of a policy is its serial. -/
def octetSerial (bytes : Bytes) : Option Int := bytes.head?.map fun b => (b.toNat : Int)

def octetOffer (i : Bool) : Offer octetSerial where
  policyBytes := [if i then 3 else 2]
  sigBytes := [if i then 3 else 2]
  serial := if i then 3 else 2
  reads := by cases i <;> rfl

def twoUpdates : Procs Bool Installed Updating where
  shared := { policy := [1], sig := some [1] }
  place _ := .start

/-- One has returned with an error, and the other has read the signature. -/
def oneLeft : Procs Bool Installed Updating :=
  ((twoUpdates.move true twoUpdates.shared (.returned .err)).move false twoUpdates.shared .compared).move false
    twoUpdates.shared (.prepared (some [1]))

/-- The other has updated. -/
def oneUpdated : Procs Bool Installed Updating :=
  (oneLeft.move false ⟨[1], some [2]⟩ (.signed (some [1]))).move false ⟨[2], some [2]⟩ (.returned .ok)

theorem reaches_oneUpdated : Reaches (updateAct octetOffer) (InTurn octetOffer) twoUpdates oneUpdated := by
  have hleft : Reaches (updateAct octetOffer) (InTurn octetOffer) twoUpdates oneLeft :=
    .step (e := UpdateEvent.prepare) (.step (e := UpdateEvent.compare) (.step (e := UpdateEvent.fails) .refl
      ⟨trivial, by simp⟩ rfl) ⟨trivial, by simp⟩ rfl) ⟨trivial, by simp⟩ rfl
  have hturn : InOrder octetOffer oneLeft false .persistSig :=
    ⟨fun j _ => by cases j <;> exact id, rfl, fun serial hserial => by cases hserial; decide⟩
  exact .step (e := UpdateEvent.persistPolicy) (.step (e := UpdateEvent.persistSig) hleft ⟨hturn, by simp⟩ rfl)
    ⟨trivial, by simp⟩ rfl

theorem updates_agree_oneUpdated : Settled octetOffer twoUpdates.shared oneUpdated oneUpdated.shared ∧
    ∃ last, octetSerial oneUpdated.shared.policy = some last ∧ Greatest octetOffer twoUpdates.shared oneUpdated last ∧
      (last = 1 ∨ ∃ i, oneUpdated.place i = .returned .ok ∧ last = (octetOffer i).serial) := by
  have hall : ∀ i, ∃ outcome, oneUpdated.place i = .returned outcome := fun i => by
    cases i with
    | false => exact ⟨.ok, rfl⟩
    | true => exact ⟨.err, rfl⟩
  exact updates_agree (fun _ => rfl) rfl reaches_oneUpdated hall

/-- The renames of the second fall between those of the first. -/
def crossing : List (Bool × UpdateEvent) :=
  [(false, .compare), (true, .compare), (false, .prepare), (true, .prepare), (false, .persistSig),
    (true, .persistSig), (true, .persistPolicy), (false, .persistPolicy)]

/-- Both return `Ok`, and the policy of one stands beside the signature of the other. -/
theorem updates_cross : ¬∀ (serialOf : Bytes → Option Int) (offer : Bool → Offer serialOf)
    (c d : Procs Bool Installed Updating) (serial : Int), (∀ i, c.place i = .start) →
    serialOf c.shared.policy = some serial → Reaches (updateAct offer) (fun _ _ _ => True) c d →
    (∀ i, ∃ outcome, d.place i = .returned outcome) → Settled offer c.shared d d.shared := by
  intro h
  have hend : (play (updateAct octetOffer) crossing twoUpdates).map (fun d => (d.shared, d.place false, d.place true)) =
      some (⟨[2], some [3]⟩, .returned .ok, .returned .ok) := by decide
  obtain ⟨d, hplay, hd⟩ := Option.map_eq_some_iff.mp hend
  obtain ⟨hshared, hfalse, htrue⟩ : d.shared = ⟨[2], some [3]⟩ ∧ d.place false = .returned .ok ∧
      d.place true = .returned .ok := by simpa using hd
  have hall : ∀ i, ∃ outcome, d.place i = .returned outcome := fun i => by
    cases i with
    | false => exact ⟨.ok, hfalse⟩
    | true => exact ⟨.ok, htrue⟩
  rcases h _ octetOffer twoUpdates d 1 (fun _ => rfl) rfl (reaches_of_play (fun _ _ _ _ => trivial) hplay) hall with
    hsame | ⟨i, -, hpair⟩
  · rw [hshared] at hsame
    cases hsame
  · rw [hshared] at hpair
    cases i <;> revert hpair <;> decide

end SecureSudoers
