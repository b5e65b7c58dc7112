/-
Wrappers that load the policy while it is updated. The policy is read first and
its signature after it, and an update renames the signature first: a wrapper can
meet a signature that belongs to another policy, and refuses then.

Where the updates rename in order, whichever of them fail, no wrapper goes back
behind a policy that one before it has loaded (`loads_monotone`), and a wrapper is
refused only while an update is between its two renames, when a newer policy has
come into place since the wrapper has read its own, or when the rollback of an
update has failed (`load_refused`).
-/
import SecureSudoers.Lib.Observers
import SecureSudoers.UpdateRace
import SecureSudoers.Start

namespace SecureSudoers

open Interleaving

/-! ## The steps of the wrapper -/

/-- Where `load_policy_with_pubkey` is. -/
inductive Loading where
  | start
  /-- The policy is read, its signature not yet. -/
  | readPolicy (policyBytes : Bytes)
  /-- What goes on to be parsed, or an error. -/
  | decided (policyBytes : Option Bytes)
  deriving DecidableEq, Repr

inductive LoadEvent where
  | readPolicy
  | readSignature
  /-- A call fails. -/
  | fails
  deriving DecidableEq, Repr

/-- A signature of 64 octets, which is one of the policy. -/
def SigningHost.accepts (host : SigningHost) (pubkey policyBytes sigBytes : Bytes) : Bool :=
  sigBytes.length = 64 && host.scheme.verify pubkey policyBytes sigBytes = .ok ()

/-- A step of wrapper `k`; `accepts` is the verification with its public key. -/
def loadSee {κ : Type} (accepts : Bytes → Bytes → Bool) : See κ Installed Loading LoadEvent := fun _ event s place =>
  match event, place with
  | .readPolicy, .start => some (.readPolicy s.policy)
  | .readSignature, .readPolicy policyBytes =>
    some (.decided (s.sig.bind fun sigBytes => if accepts policyBytes sigBytes then some policyBytes else none))
  | .fails, .start | .fails, .readPolicy _ => some (.decided none)
  | _, _ => none

/-- What is read of the policy. -/
def Loading.policyBytes : Loading → Option Bytes
  | .start => none
  | .readPolicy policyBytes => some policyBytes
  | .decided policyBytes => policyBytes

variable {ι κ : Type} {accepts : Bytes → Bytes → Bool} {s : Installed} {k : κ} {event : LoadEvent}

/-- What is held after a step was held before it, or is in place. -/
theorem loadSee_policyBytes {place place' : Loading} {policyBytes : Bytes} (h : loadSee accepts k event s place = some place')
    (hbytes : place'.policyBytes = some policyBytes) : place.policyBytes = some policyBytes ∨ policyBytes = s.policy := by
  unfold loadSee at h
  split at h
  · cases h
    exact .inr (Option.some.inj hbytes).symm
  · cases h
    obtain ⟨sigBytes, -, hsig⟩ := Option.bind_eq_some_iff.mp hbytes
    split at hsig
    · exact .inl hsig
    · cases hsig
  all_goals cases h
  all_goals cases hbytes

/-- **The steps of a wrapper, with no update between them, are those of the whole function.** -/
theorem verifiedPolicy_steps {host : SigningHost} {st : Storage} {path pubkeyPath : Str} {pubkey policyBytes : Bytes}
    (hpubkey : readPemBytes host.engine host.reader st pubkeyPath "SECURE SUDOERS PUBLIC KEY" = .ok pubkey)
    (hlength : pubkey.length = 32) (hfrom : host.scheme.fromBytes pubkey = .ok ()) (hpolicy : host.read st path = .ok s.policy)
    (hsig : (host.read st (path ++ ".sig")).toOption = s.sig) :
    host.verifiedPolicy st path pubkeyPath = .ok policyBytes ↔
      loadSee (host.accepts pubkey) k .readSignature s (.readPolicy s.policy) = some (.decided (some policyBytes)) := by
  rw [verifiedPolicy_ok]
  simp only [loadSee, Option.some.injEq, Loading.decided.injEq, Option.bind_eq_some_iff, ← hsig]
  constructor
  · intro h
    obtain ⟨pubkey', sigBytes, hpubkey', -, -, hread, hlength', hverify⟩ := h.signature
    cases hpubkey.symm.trans hpubkey'
    cases hpolicy.symm.trans h.policy
    exact ⟨sigBytes, by rw [hread]; rfl, by simp [SigningHost.accepts, hlength', hverify]⟩
  · intro h
    obtain ⟨sigBytes, hread, h⟩ := h
    split at h
    · next haccepts =>
      cases h
      simp only [SigningHost.accepts, Bool.and_eq_true, decide_eq_true_eq] at haccepts
      have hread' : host.read st (path ++ ".sig") = .ok sigBytes := by
        cases hx : host.read st (path ++ ".sig") with
        | error e => rw [hx] at hread; cases hread
        | ok b => rw [hx] at hread; cases hread; rfl
      exact ⟨hpolicy, pubkey, sigBytes, hpubkey, hlength, hfrom, hread', haccepts.1, haccepts.2⟩
    · cases h

/-! ## Policies that only get newer -/

/-- The same policy, or one with a greater serial. -/
def Newer (serialOf : Bytes → Option Int) (old new : Bytes) : Prop :=
  new = old ∨ ∃ n m, serialOf old = some n ∧ serialOf new = some m ∧ n < m

variable {serialOf : Bytes → Option Int}

theorem Newer.trans {a b c : Bytes} (hab : Newer serialOf a b) (hbc : Newer serialOf b c) : Newer serialOf a c := by
  obtain rfl | ⟨n, m, ha, hb, hlt⟩ := hab
  · exact hbc
  · obtain rfl | ⟨m', l, hb', hc, hlt'⟩ := hbc
    · exact .inr ⟨n, m, ha, hb, hlt⟩
    · cases hb.symm.trans hb'
      exact .inr ⟨n, l, ha, hc, by omega⟩

variable {offer : ι → Offer serialOf} {before : Installed} {c : Procs ι Installed Updating} {i : ι}

/-- A step of an update leaves the policy, or puts a newer one in place. -/
theorem UpdateInv.newer (h : UpdateInv offer before c) {event : UpdateEvent} {s : Installed} {place : Updating}
    (hstep : UpdateStep offer i c.shared event (c.place i) s place) : Newer serialOf c.shared.policy s.policy := by
  generalize hplace : c.place i = old at hstep
  cases hstep with
  | early => exact .inl rfl
  | persistSig => exact .inl rfl
  | @persistPolicy _ previousSig =>
    obtain ⟨serial, hserial, -⟩ := h.serial
    have hbetween : (c.place i).Between previousSig := by rw [hplace]; rfl
    exact .inr ⟨serial, _, hserial, (offer i).reads, (h.between hbetween).2.2 serial hserial⟩
  | policyFails => exact .inl rfl
  | restore => exact .inl rfl
  | rollbackFails => exact .inl rfl

variable [DecidableEq ι] [DecidableEq κ]

theorem update_grows : Grows (updateAct offer) (InOrder offer) (UpdateInv offer before)
    fun s s' => Newer serialOf s.policy s'.policy where
  refl _ := .inl rfl
  trans _ _ _ h h' := h.trans h'
  keeps hinv hok hact := hinv.step hok (updateStep_of_act hact)
  grows hinv _ hact := hinv.newer (updateStep_of_act hact)

/-! ## What a wrapper loads -/

/-- The policy a wrapper holds is known, and the one in place is newer. -/
def Held (offer : ι → Offer serialOf) (before : Installed) (place : Loading) (s : Installed) : Prop :=
  ∀ policyBytes, place.policyBytes = some policyBytes →
    Known offer before policyBytes ∧ Newer serialOf policyBytes s.policy

variable {start d d' : Watched ι κ Installed Updating Loading} {serial : Int}

/-- What a wrapper holds is newer than what was in place at some moment. -/
def Since (serialOf : Bytes → Option Int) (s : Installed) (place : Loading) : Prop :=
  ∀ policyBytes, place.policyBytes = some policyBytes → Newer serialOf s.policy policyBytes

theorem held_throughout (hstart : ∀ i, start.procs.place i = .start) (hwatch : ∀ k, start.watch k = .start)
    (hserial : serialOf start.procs.shared.policy = some serial)
    (h : Watches (updateAct offer) (InOrder offer) (loadSee accepts) start d) :
    UpdateInv offer start.procs.shared d.procs ∧ ∀ k, Held offer start.procs.shared (d.watch k) d.procs.shared := by
  have hinit : UpdateInv offer start.procs.shared start.procs := .of_start hstart hserial
  refine ⟨(update_grows.inv h hinit).1, h.seen update_grows hinit ?_ ?_ ?_⟩
  · intro k policyBytes hbytes
    rw [hwatch k] at hbytes
    cases hbytes
  · intro place s s' hnewer hheld policyBytes hbytes
    obtain ⟨hknown, hnewer'⟩ := hheld policyBytes hbytes
    exact ⟨hknown, hnewer'.trans hnewer⟩
  · intro p k event place place' hinv hsee hheld policyBytes hbytes
    obtain hbefore | rfl := loadSee_policyBytes hsee hbytes
    · exact hheld policyBytes hbefore
    · exact ⟨hinv.known, .inl rfl⟩

/-- **A wrapper that begins when another has loaded a policy loads that one, or one
with a greater serial**: with any number of wrappers, and of updates that rename
in order and may fail at any step, the rollback among them. -/
theorem loads_monotone (hstart : ∀ i, start.procs.place i = .start) (hwatch : ∀ k, start.watch k = .start)
    (hserial : serialOf start.procs.shared.policy = some serial)
    (h : Watches (updateAct offer) (InOrder offer) (loadSee accepts) start d)
    (h' : Watches (updateAct offer) (InOrder offer) (loadSee accepts) d d') {k j : κ} {policyBytes policyBytes' : Bytes}
    (hloaded : d.watch k = .decided (some policyBytes)) (hbegins : d.watch j = .start)
    (hloads : d'.watch j = .decided (some policyBytes')) :
    Newer serialOf policyBytes policyBytes' ∧ Known offer start.procs.shared policyBytes' := by
  obtain ⟨hinv, hheld⟩ := held_throughout hstart hwatch hserial h
  obtain ⟨-, hheld'⟩ := held_throughout hstart hwatch hserial (h.trans h')
  refine ⟨?_, (hheld' j policyBytes' (by rw [hloads]; rfl)).1⟩
  have hbefore := (hheld k policyBytes (by rw [hloaded]; rfl)).2
  have hsince : Since serialOf d.procs.shared (d'.watch j) := by
    refine h'.since update_grows hinv ?_ ?_
    · intro bytes hbytes
      rw [hbegins] at hbytes
      cases hbytes
    · intro p event place place' _ hgrown hsee hold bytes hbytes
      obtain hbytes' | rfl := loadSee_policyBytes hsee hbytes
      · exact hold bytes hbytes'
      · exact hgrown
  exact hbefore.trans (hsince policyBytes' (by rw [hloads]; rfl))

/-- A policy of one octet, which is its own signature. -/
def octetAccepts (policyBytes sigBytes : Bytes) : Bool := policyBytes = sigBytes

def twoWrappers : Watched Bool Bool Installed Updating Loading := ⟨twoUpdates, fun _ => .start⟩

/-- One wrapper has loaded the policy from before. -/
def oneLoaded : Watched Bool Bool Installed Updating Loading :=
  (twoWrappers.look false (.readPolicy [1])).look false (.decided (some [1]))

theorem watches_oneLoaded : Watches (updateAct octetOffer) (InOrder octetOffer) (loadSee octetAccepts) twoWrappers oneLoaded :=
  .see (f := LoadEvent.readSignature) (.see (f := LoadEvent.readPolicy) .refl rfl) rfl

/-- The other has loaded the new one. -/
def bothLoaded : Watched Bool Bool Installed Updating Loading :=
  (({ oneLoaded with procs := oneUpdated } : Watched Bool Bool Installed Updating Loading).look true (.readPolicy [2])).look
    true (.decided (some [2]))

theorem watches_bothLoaded :
    Watches (updateAct octetOffer) (InOrder octetOffer) (loadSee octetAccepts) oneLoaded bothLoaded :=
  .see (f := LoadEvent.readSignature) (.see (f := LoadEvent.readPolicy) (.of_reaches (reaches_oneUpdated.mono fun _ _ _ hok => hok.1)) rfl)
    rfl

theorem loads_monotone_updated : Newer octetSerial [1] [2] ∧ Known octetOffer twoWrappers.procs.shared [2] :=
  loads_monotone (fun _ => rfl) (fun _ => rfl) rfl watches_oneLoaded watches_bothLoaded (k := false) (j := true) rfl rfl rfl

/-- **Between the updates a wrapper is not refused**: where its signature is missing, or
not that of the policy it has read, an update is between its two renames, a policy
with a greater serial has come into place since, or an update could not roll back. -/
theorem load_refused (hstart : ∀ i, start.procs.place i = .start) (hwatch : ∀ k, start.watch k = .start)
    (hserial : serialOf start.procs.shared.policy = some serial)
    (hoffers : ∀ i, accepts (offer i).policyBytes (offer i).sigBytes = true)
    (hbefore : ∃ sig, start.procs.shared.sig = some sig ∧ accepts start.procs.shared.policy sig = true)
    (h : Watches (updateAct offer) (InOrder offer) (loadSee accepts) start d) {k : κ} {policyBytes : Bytes}
    (hread : d.watch k = .readPolicy policyBytes)
    (hrefused : loadSee accepts k .readSignature d.procs.shared (d.watch k) = some (.decided none)) :
    (∃ i sig, (d.procs.place i).Between sig) ∨
      (∃ n m, serialOf policyBytes = some n ∧ serialOf d.procs.shared.policy = some m ∧ n < m) ∨
        ∃ i, d.procs.place i = .returned .torn := by
  obtain ⟨hinv, hheld⟩ := held_throughout hstart hwatch hserial h
  obtain hsame | hnewer := (hheld k policyBytes (by rw [hread]; rfl)).2
  · by_contra hnot
    simp only [not_or, not_exists] at hnot
    obtain ⟨hquiet, -, huntorn⟩ := hnot
    have hsigned : ∃ sig, d.procs.shared.sig = some sig ∧ accepts d.procs.shared.policy sig = true := by
      obtain hpair | ⟨i, -, hpair⟩ := hinv.quiet huntorn hquiet
      · rw [hpair]
        exact hbefore
      · rw [hpair]
        exact ⟨_, rfl, hoffers i⟩
    obtain ⟨sig, hsig, haccepts⟩ := hsigned
    rw [hread, ← hsame] at hrefused
    simp [loadSee, hsig, haccepts] at hrefused
  · exact .inr (.inl hnewer)

/-- The wrapper has read the old policy, and then neither the new one nor the old signature could be renamed. -/
def oneTorn : Watched Bool Bool Installed Updating Loading where
  procs := ((oneLeft.move false ⟨[1], some [2]⟩ (.signed (some [1]))).move false ⟨[1], some [2]⟩
    (.refused (some [1]))).move false ⟨[1], some [2]⟩ (.returned .torn)
  watch := (twoWrappers.look false (.readPolicy [1])).watch

theorem reaches_oneTorn : Reaches (updateAct octetOffer) (InOrder octetOffer) twoUpdates oneTorn.procs := by
  have hleft : Reaches (updateAct octetOffer) (InOrder octetOffer) twoUpdates oneLeft :=
    .step (e := UpdateEvent.prepare) (.step (e := UpdateEvent.skip) (.step (e := UpdateEvent.fails) .refl trivial rfl)
      trivial rfl) trivial rfl
  have horder : InOrder octetOffer oneLeft false .persistSig :=
    ⟨fun j _ => by cases j <;> exact id, rfl, fun serial hserial => by cases hserial; decide⟩
  exact .step (e := UpdateEvent.rollbackFails) (.step (e := UpdateEvent.policyFails)
    (.step (e := UpdateEvent.persistSig) hleft horder rfl) trivial rfl) trivial rfl

theorem load_refused_torn : (∃ i sig, (oneTorn.procs.place i).Between sig) ∨
    (∃ n m, octetSerial [1] = some n ∧ octetSerial oneTorn.procs.shared.policy = some m ∧ n < m) ∨
      ∃ i, oneTorn.procs.place i = .returned .torn := by
  have hread : Watches (updateAct octetOffer) (InOrder octetOffer) (loadSee octetAccepts) twoWrappers
      (twoWrappers.look false (.readPolicy [1])) := .see (f := LoadEvent.readPolicy) .refl rfl
  have hcrossed : Watches (updateAct octetOffer) (InOrder octetOffer) (loadSee octetAccepts) twoWrappers oneTorn :=
    hread.trans (.of_reaches reaches_oneTorn)
  exact load_refused (fun _ => rfl) (fun _ => rfl) rfl (by decide) ⟨_, rfl, rfl⟩ hcrossed (k := false) rfl rfl

end SecureSudoers
