/-
The capabilities of the delegated command (`isolation/capabilities.rs`).

`dropCapabilities` empties the bounding set, one capability after the other up
to the last one the kernel names, and then the process's own sets. With the
bounding set and the inheritable set empty no program brings any capability: the
command is root without one towards the user namespace it is in, whatever it
executes. It can still make a user namespace of its own, and has them all there.
-/
import Mathlib.Data.Finset.Range
import SecureSudoers.Descendants
import SecureSudoers.Lib.Capabilities
import SecureSudoers.Lib.Decimal

namespace SecureSudoers

open Capabilities Relation

/-! ## The code -/

/-- How `std::num::ParseIntError` displays. -/
def displayParseError : Decimal.ParseError → Str
  | .empty => "cannot parse integer from empty string"
  | .invalidDigit => "invalid digit found in string"
  | .overflow => "number too large to fit in target type"

/-- `u32::from_str`, with its error. -/
def u32FromStr (s : Str) : Except Decimal.ParseError Nat := Decimal.parseNat (2 ^ 32) s

/-- `parse_cap_last_cap`. -/
def parseCapLastCap (value : Str) : Except Error Nat :=
  (u32FromStr (trim value)).mapError fun e =>
    .system ("Security failure: invalid /proc/sys/kernel/cap_last_cap value '" ++ trim value ++ "': " ++
      displayParseError e)

/-- The loop of `drop_bounding_capabilities_with`. -/
def dropEach {S : Type} (dropOne : Nat → S → Except Errno Unit × S) : List Nat → S → Except Error Unit × S
  | [], s => (.ok (), s)
  | cap :: caps, s =>
    match dropOne cap s with
    | (.ok (), s) => dropEach dropOne caps s
    | (.error e, s) =>
      (.error (.ioContext ("Security failure: PR_CAPBSET_DROP failed for capability " ++ Nat.toDigits 10 cap) e), s)

/-- `drop_bounding_capabilities_with`. -/
def dropBoundingCapabilitiesWith {S : Type} (lastCap : Nat) (dropOne : Nat → S → Except Errno Unit × S) (s : S) :
    Except Error Unit × S := dropEach dropOne (List.range (lastCap + 1)) s

def CAP_SETPCAP : Nat := 8
def CAP_SYS_ADMIN : Nat := 21

/-- The kernel, and what a filter in front of it refuses. -/
structure CapKernel where
  /-- The last capability it knows. -/
  lastCap : Nat
  /-- What `/proc/sys/kernel/cap_last_cap` reads as. -/
  capLastCap : Except Errno Str
  refusesDrop : Nat → Option Errno
  refusesCapset : Option Errno

namespace CapKernel

variable (k : CapKernel)

/-- `prctl(PR_CAPBSET_DROP)`. -/
def capbsetDrop (cap : Nat) (c : Creds Nat) : Except Errno Unit × Creds Nat :=
  match k.refusesDrop cap with
  | some e => (.error e, c)
  | none =>
    if CAP_SETPCAP ∉ c.effective then (.error EPERM, c)
    else if k.lastCap < cap then (.error .EINVAL, c)
    else (.ok (), c.dropBounding cap)

/-- `read_cap_last_cap`. -/
def readCapLastCap : Except Error Nat :=
  match k.capLastCap with
  | .error e => .error (.ioContext "Security failure: cannot read /proc/sys/kernel/cap_last_cap" e)
  | .ok value => parseCapLastCap value

/-- `drop_capabilities`. -/
def dropCapabilities (c : Creds Nat) : Except Error Unit × Creds Nat :=
  match k.readCapLastCap with
  | .error e => (.error e, c)
  | .ok lastCap =>
    match dropBoundingCapabilitiesWith lastCap k.capbsetDrop c with
    | (.error e, c) => (.error e, c)
    | (.ok (), c) =>
      match k.refusesCapset with
      | some e => (.error (.ioContext "Security failure: capset failed" e), c)
      | none => (.ok (), c.capset ∅ ∅ ∅ (Finset.empty_subset _))

end CapKernel

/-! ## What is dropped -/

theorem trim_line {n : Nat} : trim (Nat.toDigits 10 n ++ ['\n']) = Nat.toDigits 10 n := by
  have hdigit : ∀ c ∈ Nat.toDigits 10 n, isWhitespace c = false := fun c hc =>
    graphic_not_whitespace (digits_graphic c hc).1 (digits_graphic c hc).2
  have hkeep : ∀ {s : Str}, (∀ c ∈ s, isWhitespace c = false) → s.dropWhile isWhitespace = s := by
    intro s hs
    cases s with
    | nil => rfl
    | cons c s => exact List.dropWhile_cons_of_neg (by simp [hs c (List.mem_cons_self ..)])
  obtain ⟨c, digits, hcons⟩ := List.exists_cons_of_ne_nil (@Nat.toDigits_ne_nil n 10)
  have hfirst : isWhitespace c = false := hdigit c (hcons ▸ List.mem_cons_self ..)
  have hfront : (Nat.toDigits 10 n ++ ['\n']).dropWhile isWhitespace = Nat.toDigits 10 n ++ ['\n'] := by
    rw [hcons, List.cons_append, List.dropWhile_cons_of_neg (by simp [hfirst])]
  rw [trim, hfront, List.reverse_append, List.reverse_singleton, List.singleton_append,
    List.dropWhile_cons_of_pos (by decide), hkeep (fun c hc => hdigit c (List.mem_reverse.mp hc)), List.reverse_reverse]

namespace CapKernel

variable {k : CapKernel} {c c' : Creds Nat}

/-- Those the kernel knows. -/
def allCaps (k : CapKernel) : Finset Nat := Finset.range (k.lastCap + 1)

/-- The capability can be dropped. -/
def Drops (k : CapKernel) (c : Creds Nat) (cap : Nat) : Prop :=
  k.refusesDrop cap = none ∧ CAP_SETPCAP ∈ c.effective ∧ cap ≤ k.lastCap

theorem capbsetDrop_ok {cap : Nat} (h : k.Drops c cap) : k.capbsetDrop cap c = (.ok (), c.dropBounding cap) := by
  obtain ⟨hrefuses, hsetpcap, hle⟩ := h
  simp [capbsetDrop, hrefuses, hsetpcap, Nat.not_lt.mpr hle]

theorem capbsetDrop_error {cap : Nat} (h : ¬k.Drops c cap) : ∃ e, k.capbsetDrop cap c = (.error e, c) := by
  unfold capbsetDrop
  split
  · exact ⟨_, rfl⟩
  · next hrefuses =>
    split
    · exact ⟨_, rfl⟩
    · next hsetpcap =>
      split
      · exact ⟨_, rfl⟩
      · next hle => exact absurd ⟨hrefuses, not_not.mp hsetpcap, Nat.not_lt.mp hle⟩ h

/-- **The loop stops at the first capability that cannot be dropped**, and names it. -/
theorem dropEach_eq : ∀ {caps : List Nat} {c : Creds Nat},
    ((∀ cap ∈ caps, k.Drops c cap) ∧ dropEach k.capbsetDrop caps c = (.ok (), c.without caps.toFinset)) ∨
    ∃ dropped cap rest e, caps = dropped ++ cap :: rest ∧ (∀ d ∈ dropped, k.Drops c d) ∧ ¬k.Drops c cap ∧
      dropEach k.capbsetDrop caps c =
        (.error (.ioContext ("Security failure: PR_CAPBSET_DROP failed for capability " ++ Nat.toDigits 10 cap) e),
          c.without dropped.toFinset)
  | [], c => .inl ⟨nofun, by rw [List.toFinset_nil, Creds.without_empty]; rfl⟩
  | cap :: caps, c => by
    by_cases hcap : k.Drops c cap
    · have hstep : dropEach k.capbsetDrop (cap :: caps) c = dropEach k.capbsetDrop caps (c.dropBounding cap) := by
        rw [dropEach, capbsetDrop_ok hcap]
      obtain ⟨hall, hrun⟩ | ⟨dropped, d, rest, e, rfl, hdropped, hd, hrun⟩ := @dropEach_eq caps (c.dropBounding cap)
      · refine .inl ⟨List.forall_mem_cons.mpr ⟨hcap, hall⟩, ?_⟩
        rw [hstep, hrun, Creds.dropBounding_without, List.toFinset_cons]
      · refine .inr ⟨cap :: dropped, d, rest, e, rfl, List.forall_mem_cons.mpr ⟨hcap, hdropped⟩, hd, ?_⟩
        rw [hstep, hrun, Creds.dropBounding_without, List.toFinset_cons]
    · obtain ⟨e, he⟩ := capbsetDrop_error hcap
      refine .inr ⟨[], cap, caps, e, rfl, nofun, hcap, ?_⟩
      rw [dropEach, he, List.toFinset_nil, Creds.without_empty]

theorem toFinset_range {n : Nat} : (List.range n).toFinset = Finset.range n := by
  ext cap
  simp

/-- What the process has once its own sets are empty too. -/
theorem sources_capset {caps : Finset Nat} :
    ((c.without caps).capset ∅ ∅ ∅ (Finset.empty_subset _)).sources = c.bounding \ caps := by
  ext cap
  simp [Creds.mem_sources, Creds.capset, Creds.without]

/-- **All or nothing of the process's own sets**: they are emptied once each
capability is dropped; else the error names the first that is not, or another
call, and they are left as they are. -/
theorem dropCapabilities_cases (k : CapKernel) (c : Creds Nat) :
    (∃ last, k.readCapLastCap = .ok last ∧ (∀ cap ≤ last, k.Drops c cap) ∧ k.refusesCapset = none ∧
      k.dropCapabilities c =
        (.ok (), (c.without (Finset.range (last + 1))).capset ∅ ∅ ∅ (Finset.empty_subset _))) ∨
    ((∀ last, k.readCapLastCap = .ok last → (∀ cap ≤ last, k.Drops c cap) → k.refusesCapset ≠ none) ∧
      ∃ e n, k.dropCapabilities c = (.error e, c.without (Finset.range n))) := by
  have hnone : c = c.without (Finset.range 0) := by rw [Finset.range_zero, Creds.without_empty]
  unfold dropCapabilities
  cases hread : k.readCapLastCap with
  | error e =>
    refine .inr ⟨nofun, e, 0, ?_⟩
    rw [← hnone]
  | ok last =>
    dsimp only
    obtain ⟨hall, hrun⟩ | ⟨dropped, cap, rest, e, hcaps, -, hcap, hrun⟩ := @dropEach_eq k (List.range (last + 1)) c
    · have hall : ∀ cap ≤ last, k.Drops c cap := fun cap hle => hall cap (List.mem_range.mpr (Nat.lt_succ_of_le hle))
      rw [toFinset_range] at hrun
      rw [dropBoundingCapabilitiesWith, hrun]
      dsimp only
      cases hcapset : k.refusesCapset with
      | none => exact .inl ⟨last, rfl, hall, rfl, rfl⟩
      | some e => exact .inr ⟨by simp, _, last + 1, rfl⟩
    · have hmem : cap ∈ List.range (last + 1) := by simp [hcaps]
      have hle : cap ≤ last := Nat.le_of_lt_succ (List.mem_range.mp hmem)
      have hdropped : dropped = List.range dropped.length := by
        have htake := congrArg (List.take dropped.length) hcaps
        rw [List.take_left, List.take_range] at htake
        have hlen := congrArg List.length hcaps
        simp only [List.length_range, List.length_append, List.length_cons] at hlen
        rw [← htake, Nat.min_eq_left (by omega), List.length_range]
      rw [hdropped, toFinset_range] at hrun
      rw [dropBoundingCapabilitiesWith, hrun]
      refine .inr ⟨?_, _, dropped.length, rfl⟩
      intro last' hlast hall
      cases hlast
      exact absurd (hall cap hle) hcap

end CapKernel

/-- **The delegated command is root without a capability.** The kernel names its
last capability, and the bounding set has no other: then `drop_capabilities`
succeeds exactly where the caller may drop capabilities and no filter refuses
the calls; and whatever is executed afterwards, by whom and with whatever file
capabilities, the process never has a capability towards its user namespace, nor
towards one that is not below it, and none of its sets has one while it is there. -/
theorem dropCapabilities_confines {N : Type} {k : CapKernel} {c : Creds Nat} {ns : List N}
    (hfile : k.capLastCap = .ok (Nat.toDigits 10 k.lastCap ++ ['\n'])) (hlast : k.lastCap < 2 ^ 32)
    (hvalid : ∀ cap ∈ c.bounding, cap ≤ k.lastCap) :
    ((k.dropCapabilities c).1 = .ok () ↔ CAP_SETPCAP ∈ c.effective ∧ (∀ cap ≤ k.lastCap, k.refusesDrop cap = none) ∧
      k.refusesCapset = none) ∧
    ∀ c', k.dropCapabilities c = (.ok (), c') → ∀ u, ReflTransGen (UserStep k.allCaps CAP_SYS_ADMIN) ⟨ns, c'⟩ u →
      (∀ owned target cap, Capable owned u target cap → ns <+: target ∧ target ≠ ns) ∧
        (u.ns = ns → u.creds.permitted = ∅ ∧ u.creds.effective = ∅ ∧ u.creds.inheritable = ∅ ∧
          u.creds.bounding = ∅ ∧ u.creds.ambient = ∅) := by
  have hread : k.readCapLastCap = .ok k.lastCap := by
    rw [CapKernel.readCapLastCap, hfile]
    simp only [parseCapLastCap, trim_line, u32FromStr, Decimal.parseNat_digits hlast]
    rfl
  have hdrops : (∀ cap ≤ k.lastCap, k.Drops c cap) ↔
      CAP_SETPCAP ∈ c.effective ∧ ∀ cap ≤ k.lastCap, k.refusesDrop cap = none :=
    ⟨fun h => ⟨(h 0 (Nat.zero_le _)).2.1, fun cap hle => (h cap hle).1⟩, fun h cap hle => ⟨h.2 cap hle, h.1, hle⟩⟩
  obtain ⟨last, hread', hall, hcapset, hrun⟩ | ⟨hnot, e, n, hrun⟩ := k.dropCapabilities_cases c
  · rw [hread] at hread'
    cases hread'
    rw [hrun]
    refine ⟨iff_of_true rfl ⟨(hdrops.mp hall).1, (hdrops.mp hall).2, hcapset⟩, ?_⟩
    intro c' hc' u hu
    cases hc'
    have hnone : c.bounding \ Finset.range (k.lastCap + 1) = ∅ := by
      rw [Finset.sdiff_eq_empty_iff_subset]
      intro cap hcap
      exact Finset.mem_range.mpr (Nat.lt_succ_of_le (hvalid cap hcap))
    have hconfined := not_capable_above (CapKernel.sources_capset.trans hnone) hu
    exact ⟨fun _ _ _ hcap => hconfined.capable hcap, fun hns => eq_empty_of_sources (hconfined.2 hns)⟩
  · rw [hrun]
    refine ⟨iff_of_false nofun fun h => ?_, nofun⟩
    exact hnot _ hread (hdrops.mpr ⟨h.1, h.2.1⟩) h.2.2

/-- A kernel with the capabilities up to 40. -/
def kernel40 : CapKernel where
  lastCap := 40
  capLastCap := .ok "40\n".toList
  refusesDrop _ := none
  refusesCapset := none

/-- Root with all of them. -/
def rootCreds : Creds Nat where
  permitted := Finset.range 41
  effective := Finset.range 41
  inheritable := ∅
  bounding := Finset.range 41
  ambient := ∅
  effective_subset := Finset.Subset.refl _
  ambient_subset := Finset.empty_subset _

theorem dropCapabilities_root : ∃ c', kernel40.dropCapabilities rootCreds = (.ok (), c') ∧
    ∀ u : NsProcess Nat Nat, ReflTransGen (UserStep kernel40.allCaps CAP_SYS_ADMIN) ⟨[], c'⟩ u →
      ∀ owned cap, ¬Capable owned u [] cap := by
  obtain ⟨hok, hafter⟩ := @dropCapabilities_confines Nat kernel40 rootCreds [] rfl (by decide)
    fun cap hcap => Nat.le_of_lt_succ (Finset.mem_range.mp hcap)
  have hrun := hok.mpr ⟨Finset.mem_range.mpr (by decide), fun _ _ => rfl, rfl⟩
  have heq : kernel40.dropCapabilities rootCreds = (.ok (), (kernel40.dropCapabilities rootCreds).2) := by
    rw [← hrun]
  exact ⟨_, heq, fun u hu owned cap hcap => ((hafter _ heq u hu).1 owned [] cap hcap).2 rfl⟩

end SecureSudoers
