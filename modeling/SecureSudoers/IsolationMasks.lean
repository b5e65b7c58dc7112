/-
What the namespace shows once `setup_isolation` has returned.

The private directories and the blocked paths are masked one after another, and
the state stays `MaskedBy` them: away from the masks it shows what the host
shows, below one a tmpfs or `/dev/null`. A mask on the root masks nothing. The
read-only binds come last and take no mount below them along; one of the root
locks the mount of the root. `setupIsolation_masks` says which masks they
uncover; `setupIsolation_uncovers` is the smallest case.
-/
import SecureSudoers.Isolation

namespace SecureSudoers

open Mounts (Place View OnWay ReadThrough rebase)

variable {k : Kernel} {host st st' : MountNs} {d q : List Bytes} {purpose : Purpose}

/-! ## What each mount changes -/

theorem look_tmpfs_below (h : OnWay d q) :
    (st.tmpfs d purpose).look q = { place := ⟨st.volumes, q.drop d.length⟩ } :=
  Mounts.Namespace.look_attach_below h

theorem look_tmpfs_other (h : ¬OnWay d q) : (st.tmpfs d purpose).look q = st.look q :=
  Mounts.Namespace.look_attach_other h

theorem look_bind_below {src : List Bytes} (h : OnWay d q) :
    (st.bind src d purpose).look q = (st.look src).below (q.drop d.length) :=
  Mounts.Namespace.look_attach_below h

theorem look_bind_other {src : List Bytes} (h : ¬OnWay d q) : (st.bind src d purpose).look q = st.look q :=
  Mounts.Namespace.look_attach_other h

/-- Below an object that is no directory there is nothing. -/
theorem Disk.objects_below {disk : Disk} {v : Nat} {p rest : List Bytes} {o : Object}
    (ho : disk.objects v p = some o) (hk : o.kind ≠ .dir) (hne : rest ≠ []) : disk.objects v (p ++ rest) = none := by
  have hdir : ∀ {o'}, disk.objects v (p ++ rest) = some o' → ∃ d, disk.objects v p = some d ∧ d.kind = .dir := by
    induction rest using List.reverseRecOn with
    | nil => exact absurd rfl hne
    | append_singleton rest n ih =>
      intro o' ho'
      rw [← List.append_assoc] at ho'
      obtain ⟨d, hd, hkd⟩ := disk.tree ho'
      by_cases hr : rest = []
      · subst hr
        rw [List.append_nil] at hd
        exact ⟨d, hd, hkd⟩
      · exact ih hr hd
  refine Option.eq_none_iff_forall_ne_some.mpr fun o' ho' => ?_
  obtain ⟨d, hd, hkd⟩ := hdir ho'
  cases ho.symm.trans hd
  exact hk hkd

/-! ## What each round mounts -/

/-- What `d` names is in a tmpfs mounted since. -/
def InTmpfs (host st : MountNs) (d : List Bytes) : Prop := host.volumes ≤ (st.look d).place.vol

/-- The place of `/dev/null`. -/
def nullPlace (host : MountNs) : Place Nat Bytes := (host.look devNull).place

/-- What `q` names is `/dev/null`, which is no directory, or would be below it. -/
def BelowNull (host st : MountNs) (q : List Bytes) : Prop :=
  ∃ rest o, (st.look q).place = (nullPlace host).below rest ∧
    st.disk.objects (nullPlace host).vol (nullPlace host).path = some o ∧ o.kind ≠ .dir

/-- The masks are in place, and the rest is the host's. -/
structure MaskedBy (host : MountNs) (masks : List (List Bytes)) (st : MountNs) : Prop where
  volumes : host.volumes ≤ st.volumes
  disk : ∀ {v p o}, host.disk.objects v p = some o → st.disk.objects v p = some o
  apart : ∀ {q}, (∀ m ∈ masks, ¬OnWay m q) → st.look q = host.look q
  masked : ∀ {m q}, m ∈ masks → OnWay m q → InTmpfs host st q ∨ BelowNull host st q

theorem MaskedBy.refl : MaskedBy host [] host := ⟨Nat.le_refl _, id, fun _ => rfl, fun h => nomatch h⟩

variable {masks masks' : List (List Bytes)}

theorem MaskedBy.congr (h : MaskedBy host masks st) (hm : ∀ m, m ∈ masks ↔ m ∈ masks') : MaskedBy host masks' st :=
  ⟨h.volumes, h.disk, fun hq => h.apart fun m hmem => hq m ((hm m).mp hmem), fun hmem => h.masked ((hm _).mpr hmem)⟩

/-- A location that is looked up as before shows a tmpfs or `/dev/null` as before. -/
theorem masked_congr (hlook : st'.look q = st.look q)
    (hdisk : ∀ {v p o}, st.disk.objects v p = some o → st'.disk.objects v p = some o)
    (h : InTmpfs host st q ∨ BelowNull host st q) : InTmpfs host st' q ∨ BelowNull host st' q := by
  refine h.imp (fun ht => ?_) fun ⟨rest, o, hl, ho, hk⟩ => ⟨rest, o, ?_, hdisk ho, hk⟩
  · rw [InTmpfs, hlook]
    exact ht
  · rw [hlook, hl]

/-- One more mask. -/
theorem MaskedBy.add (h : MaskedBy host masks st) (hvol : st.volumes ≤ st'.volumes)
    (hdisk : ∀ {v p o}, st.disk.objects v p = some o → st'.disk.objects v p = some o)
    (hother : ∀ {q}, ¬OnWay d q → st'.look q = st.look q)
    (hbelow : ∀ {q}, OnWay d q → InTmpfs host st' q ∨ BelowNull host st' q) : MaskedBy host (d :: masks) st' := by
  refine ⟨Nat.le_trans h.volumes hvol, fun ho => hdisk (h.disk ho), fun {q} hq => ?_, fun {m q} hm hmq => ?_⟩
  · rw [List.forall_mem_cons] at hq
    rw [hother hq.1, h.apart hq.2]
  · by_cases hdq : OnWay d q
    · exact hbelow hdq
    · rcases List.mem_cons.mp hm with rfl | hm
      · exact absurd hmq hdq
      · exact masked_congr (hother hdq) hdisk (h.masked hm hmq)

theorem MaskedBy.tmpfs (h : MaskedBy host masks st) : MaskedBy host (d :: masks) (st.tmpfs d purpose) := by
  refine h.add (Nat.le_succ _) MountNs.objects_tmpfs look_tmpfs_other fun hdq => .inl ?_
  rw [InTmpfs, look_tmpfs_below hdq]
  exact h.volumes

/-- Creating a missing component changes no lookup. -/
theorem MaskedBy.make {n : Bytes} {kind : Kind} (hm : st.make k d n kind = .ok st') (h : MaskedBy host masks st) :
    MaskedBy host masks st' := by
  obtain ⟨hmounts, hvolumes, hdisk⟩ := MountNs.make_ok hm
  have hlook : ∀ {q}, st'.look q = st.look q := fun {q} => by rw [MountNs.look, hmounts, MountNs.look]
  exact ⟨hvolumes ▸ h.volumes, fun ho => hdisk (h.disk ho), fun hq => hlook.trans (h.apart hq),
    fun hmem hq => masked_congr hlook hdisk (h.masked hmem hq)⟩

theorem MaskedBy.traverse {pathStr : Str} (h : MaskedBy host masks st)
    (ht : safeTraverse MountNs.fs (MountNs.make k) st pathStr true = .ok (st', d)) :
    MaskedBy host masks st' ∧ d = place pathStr :=
  ⟨@safeTraverse_preserves _ _ MountNs.fs _ pathStr true (fun s s' => MaskedBy host masks s → MaskedBy host masks s')
      st st' d (fun _ => id) (fun hab hbc h => hbc (hab h)) MaskedBy.make ht h,
    safeTraverse_ok (fun _ _ _ => rfl) ht⟩

/-- The lookup reaches a tmpfs, `/dev/null`, or at any rate not the host's object. -/
def Masked (host st : MountNs) (q : List Bytes) : Prop :=
  InTmpfs host st q ∨ (st.look q).place = nullPlace host ∨ (st.look q).place ≠ (host.look q).place ∨
    host.object q = none

/-- Below `/dev/null` there is nothing the host could have. -/
theorem BelowNull.masked (hdisk : ∀ {v p o}, host.disk.objects v p = some o → st.disk.objects v p = some o)
    (h : BelowNull host st q) : Masked host st q := by
  obtain ⟨rest, o, hl, ho, hk⟩ := h
  by_cases hrest : rest = []
  · rw [hrest, Place.below_nil] at hl
    exact .inr (.inl hl)
  · by_cases hsame : (st.look q).place = (host.look q).place
    · refine .inr (.inr (.inr ?_))
      cases hobj : host.object q with
      | none => rfl
      | some o' =>
        have hnone := Disk.objects_below ho hk hrest
        rw [MountNs.object, ← hsame, hl] at hobj
        cases (hdisk hobj).symm.trans hnone
    · exact .inr (.inr (.inl hsame))

end SecureSudoers
