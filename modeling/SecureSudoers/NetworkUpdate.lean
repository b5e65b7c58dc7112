/-
Updating the policy from a server (`run_with_client` in `network.rs`), one
attempt after the other.

The serial of the download is compared with that of the policy in place. Where
the file cannot be read, or is not read as a policy, there is nothing to compare
with and the download is installed. `run_raises`: where every accepted download
finds a policy in place that it can read, the policies handed to
`install_update` have a higher serial than the one they replace.
-/
import SecureSudoers.Update
import SecureSudoers.PolicyValidation

namespace SecureSudoers

variable {Key D : Type}

/-- What a server answers to a request, or why it was not sent. -/
inductive Response where
  | failed (reason : Str)
  | answered (success : Bool) (status : Str) (contentLength : Option Nat) (body : Except Errno Bytes)

def maxPolicyBytes : Nat := 1024 * 1024

def fetchLimited (safeUrl : Str) : Response → Except Error Bytes
  | .failed reason => .error (.network ("GET " ++ safeUrl ++ " failed: " ++ reason))
  | .answered success status contentLength body =>
    if !success then .error (.network ("HTTP " ++ status ++ " for " ++ safeUrl))
    else match contentLength.filter fun n => decide (maxPolicyBytes < n) with
      | some n => .error (.config ("Server Content-Length " ++ Nat.toDigits 10 n ++ " exceeds " ++
          Nat.toDigits 10 maxPolicyBytes ++ "-byte limit"))
      | none =>
        match body with
        | .error e => .error (.ioContext ("Failed to read body of " ++ safeUrl) e)
        | .ok bytes =>
          if maxPolicyBytes < bytes.length then
            .error (.config ("Response body exceeds " ++ Nat.toDigits 10 maxPolicyBytes ++ "-byte limit"))
          else .ok bytes

/-- `serde_json` on policies. -/
structure PolicyJson where
  fromSlice : Bytes → Except Str SecureSudoersPolicy
  /-- The integer an object has under `serial`. -/
  topSerial : Bytes → Option Int
  /-- It is read from there. -/
  agrees {bytes : Bytes} {policy : SecureSudoersPolicy} {serial : Int} :
    fromSlice bytes = .ok policy → topSerial bytes = some serial → policy.serial = serial

/-- The serial a file records; a policy without one has the default. -/
def PolicyJson.recordedSerial (json : PolicyJson) (bytes : Bytes) : Option Int :=
  (json.topSerial bytes).or ((json.fromSlice bytes).toOption.map (·.serial))

theorem PolicyJson.recordedSerial_of_read {json : PolicyJson} {bytes : Bytes} {policy : SecureSudoersPolicy}
    (h : json.fromSlice bytes = .ok policy) : json.recordedSerial bytes = some policy.serial := by
  unfold recordedSerial
  cases htop : json.topSerial bytes with
  | none =>
    rw [h]
    rfl
  | some serial =>
    rw [json.agrees h htop]
    rfl

/-- What all attempts share. -/
structure Updater (Key D : Type) where
  json : PolicyJson
  /-- `verifying_key.verify`. -/
  verify : Key → Bytes → Bytes → Except Str Unit
  fs : FileSystem D
  regexNew : Str → Option Regex
  dest : Destination

/-- One call of `run_with_client`. -/
structure Attempt (Key : Type) where
  /-- The two addresses, as they are logged, or why they are refused. -/
  urls : Except Error (Str × Str)
  policyResponse : Response
  sigResponse : Response
  /-- `load_verifying_key`. -/
  key : Except Error Key
  /-- The policy in place cannot be opened or read. -/
  unreadable : Bool
  faults : Faults

/-- A download that was verified and validated. -/
structure Download where
  policyBytes : Bytes
  sigBytes : Bytes
  policy : SecureSudoersPolicy

/-- `run_with_client`, up to the comparison of the serials. -/
def download (u : Updater Key D) (a : Attempt Key) : Except Error Download := do
  let (policyUrl, sigUrl) ← a.urls
  let policyBytes ← fetchLimited policyUrl a.policyResponse
  let sigBytes ← fetchLimited sigUrl a.sigResponse
  let key ← a.key
  if sigBytes.length ≠ 64 then
    .error (.validation ("Signature must be 64 bytes; got " ++ Nat.toDigits 10 sigBytes.length))
  else do
    (u.verify key policyBytes sigBytes).mapError fun e => .security ("Signature verification failed: " ++ e)
    let parsed ← (u.json.fromSlice policyBytes).mapError fun e =>
      .parse ("Downloaded policy is not valid JSON: " ++ e)
    let policy ← (parsed.validate u.fs u.regexNew).mapError fun e =>
      .validation ("Downloaded policy failed semantic validation: " ++ e.display)
    .ok { policyBytes, sigBytes, policy }

/-- The serial of the policy in place, where it is read as one. -/
def currentSerial (u : Updater Key D) (a : Attempt Key) (dir : Dir) : Option Int :=
  match dir.lookup u.dest.name with
  | none => none
  | some f =>
    if a.unreadable ∨ Utf8.decode? f.bytes = none then none
    else (u.json.fromSlice f.bytes).toOption.map (·.serial)

/-- What the attempt hands to `install_update`. -/
def candidate (u : Updater Key D) (a : Attempt Key) (dir : Dir) : Except Error Download := do
  let new ← download u a
  match (currentSerial u a dir).filter fun serial => decide (new.policy.serial ≤ serial) with
  | some serial => .error (.config ("Downgrade rejected: incoming serial " ++ intDigits new.policy.serial ++
      " <= current serial " ++ intDigits serial))
  | none => .ok new

def runWithClient (u : Updater Key D) (a : Attempt Key) (dir : Dir) : Except Str Unit × Dir :=
  match candidate u a dir with
  | .error e => (.error e.display, dir)
  | .ok new => installUpdate a.faults u.dest new.policyBytes new.sigBytes dir

/-- A run of attempts. -/
def runAll (u : Updater Key D) : List (Attempt Key) → Dir → Dir
  | [], dir => dir
  | a :: attempts, dir => runAll u attempts (runWithClient u a dir).2

/-- `P` holds of every attempt of a run and of the directory it finds. -/
def Along (u : Updater Key D) (P : Attempt Key → Dir → Prop) : List (Attempt Key) → Dir → Prop
  | [], _ => True
  | a :: attempts, dir => P a dir ∧ Along u P attempts (runWithClient u a dir).2

/-- The serial recorded in the policy in place. -/
def serialAt (u : Updater Key D) (dir : Dir) : Option Int :=
  (dir.lookup u.dest.name).bind fun f => u.json.recordedSerial f.bytes

/-- The attempt hands on no policy whose serial is not above the recorded one,
and the recorded serial stays or becomes that of the policy. -/
structure Raises (u : Updater Key D) (a : Attempt Key) (dir : Dir) : Prop where
  above {new : Download} {serial : Int} : candidate u a dir = .ok new → serialAt u dir = some serial →
    serial < new.policy.serial
  recorded : serialAt u (runWithClient u a dir).2 = serialAt u dir ∨
    ∃ new, candidate u a dir = .ok new ∧ serialAt u (runWithClient u a dir).2 = some new.policy.serial

/-- The policy in place can be read at that moment, and is read as a policy. -/
def ReadsCurrent (u : Updater Key D) (a : Attempt Key) (dir : Dir) : Prop :=
  a.unreadable = false ∧ ∃ f policy, dir.lookup u.dest.name = some f ∧ Utf8.decode? f.bytes ≠ none ∧
    u.json.fromSlice f.bytes = .ok policy

/-- An attempt whose download is accepted reads it. -/
def Compares (u : Updater Key D) (a : Attempt Key) (dir : Dir) : Prop :=
  ∀ new, download u a = .ok new → ReadsCurrent u a dir

variable {u : Updater Key D} {a : Attempt Key} {dir : Dir}

theorem validate_serial {fs : FileSystem D} {regexNew : Str → Option Regex} {policy policy' : SecureSudoersPolicy}
    (h : policy.validate fs regexNew = .ok policy') : policy'.serial = policy.serial := by
  unfold SecureSudoersPolicy.validate at h
  split at h
  · cases h
  · obtain ⟨blockedPaths, -, h⟩ := bind_ok.mp h
    obtain ⟨tools, -, h⟩ := bind_ok.mp h
    cases h
    rfl

/-- What is handed on is read with the serial that was compared. -/
theorem download_serial {new : Download} (h : download u a = .ok new) :
    u.json.recordedSerial new.policyBytes = some new.policy.serial := by
  unfold download at h
  obtain ⟨urls, -, h⟩ := bind_ok.mp h
  obtain ⟨policyBytes, -, h⟩ := bind_ok.mp h
  obtain ⟨sigBytes, -, h⟩ := bind_ok.mp h
  obtain ⟨key, -, h⟩ := bind_ok.mp h
  split at h
  · cases h
  · obtain ⟨-, -, h⟩ := bind_ok.mp h
    obtain ⟨parsed, hparsed, h⟩ := bind_ok.mp h
    obtain ⟨policy, hpolicy, h⟩ := bind_ok.mp h
    cases h
    rw [PolicyJson.recordedSerial_of_read (mapError_ok.mp hparsed), validate_serial (mapError_ok.mp hpolicy)]

theorem candidate_ok {new : Download} : candidate u a dir = .ok new ↔
    download u a = .ok new ∧ ∀ serial, currentSerial u a dir = some serial → serial < new.policy.serial := by
  unfold candidate
  rw [bind_ok]
  constructor
  · rintro ⟨new', hdown, h⟩
    split at h
    · cases h
    · rename_i hfilter
      cases h
      refine ⟨hdown, fun serial hserial => ?_⟩
      have hno := Option.filter_eq_none_iff.mp hfilter serial hserial
      simp only [decide_eq_true_eq] at hno
      omega
  · rintro ⟨hdown, habove⟩
    refine ⟨new, hdown, ?_⟩
    have hfilter : ((currentSerial u a dir).filter fun serial => decide (new.policy.serial ≤ serial)) = none := by
      refine Option.filter_eq_none_iff.mpr fun serial hserial => ?_
      have := habove serial hserial
      simp only [decide_eq_true_eq]
      omega
    rw [hfilter]

theorem currentSerial_read (h : ReadsCurrent u a dir) : currentSerial u a dir = serialAt u dir := by
  obtain ⟨hread, f, policy, hfile, htext, hparse⟩ := h
  have hreadable : ¬(a.unreadable = true ∨ Utf8.decode? f.bytes = none) := by
    rw [hread]
    exact fun h => h.elim Bool.false_ne_true htext
  unfold currentSerial serialAt
  rw [hfile, Option.bind_some, PolicyJson.recordedSerial_of_read hparse]
  simp only [if_neg hreadable, hparse]
  rfl

theorem serialAt_eq (dir : Dir) : serialAt u dir =
    ((visible (dir.lookup u.dest.name)).map Prod.fst).bind u.json.recordedSerial := by
  unfold serialAt
  cases dir.lookup u.dest.name <;> rfl

theorem serialAt_newPair {dir' : Dir} {policyBytes sigBytes : Bytes}
    (h : u.dest.pair dir' = u.dest.newPair policyBytes sigBytes dir) :
    serialAt u dir' = u.json.recordedSerial policyBytes := by
  rw [serialAt_eq, show visible (dir'.lookup u.dest.name) = _ from congrArg Prod.fst h]
  rfl

/-- The file of the policy changes only into one that was handed on. -/
theorem runWithClient_recorded : serialAt u (runWithClient u a dir).2 = serialAt u dir ∨
    ∃ new, candidate u a dir = .ok new ∧ serialAt u (runWithClient u a dir).2 = some new.policy.serial := by
  unfold runWithClient
  cases hcand : candidate u a dir with
  | error e => exact .inl rfl
  | ok new =>
    rcases (installUpdate_leaves (Prod.eta _).symm).pair with ⟨-, hold, -⟩ | hnew
    · left
      rw [serialAt_eq, hold, ← serialAt_eq]
    · right
      refine ⟨new, rfl, ?_⟩
      exact (serialAt_newPair hnew).trans (download_serial (candidate_ok.mp hcand).1)

theorem raises_of_compares (h : Compares u a dir) : Raises u a dir where
  above {new serial} hcand hserial := by
    obtain ⟨hdown, habove⟩ := candidate_ok.mp hcand
    exact habove _ ((currentSerial_read (h new hdown)).trans hserial)
  recorded := runWithClient_recorded

theorem Raises.le {serial : Int} (h : Raises u a dir) (hserial : serialAt u dir = some serial) :
    ∃ serial', serialAt u (runWithClient u a dir).2 = some serial' ∧ serial ≤ serial' := by
  rcases h.recorded with hsame | ⟨new, hcand, hnew⟩
  · exact ⟨serial, hsame.trans hserial, le_refl _⟩
  · exact ⟨new.policy.serial, hnew, Int.le_of_lt (h.above hcand hserial)⟩

/-- **In a run in which every accepted download finds a policy in place that it can
read, each attempt hands on only policies of a higher serial, and the recorded
serial never decreases.** -/
theorem run_raises (u : Updater Key D) {attempts : List (Attempt Key)} {dir : Dir} {serial : Int}
    (hserial : serialAt u dir = some serial) (hreads : Along u (Compares u) attempts dir) :
    Along u (Raises u) attempts dir ∧ ∃ serial', serialAt u (runAll u attempts dir) = some serial' ∧ serial ≤ serial' := by
  induction attempts generalizing dir serial with
  | nil => exact ⟨trivial, serial, hserial, le_refl _⟩
  | cons a attempts ih =>
    have hraises := raises_of_compares hreads.1
    obtain ⟨mid, hmid, hle⟩ := hraises.le hserial
    obtain ⟨halong, last, hlast, hle'⟩ := ih hmid hreads.2
    exact ⟨⟨hraises, halong⟩, last, hlast, Int.le_trans hle hle'⟩

/-! ## A policy that is not read as one -/

def servedPolicy : SecureSudoersPolicy := { serial := 1, globalSettings := { blockedPaths := [] }, tools := .empty }

def servedBytes : Bytes :=
  Utf8.encode "\x7b\"version\":\"1.0\",\"serial\":1,\"global_settings\":\x7b\"blocked_paths\":[]\x7d,\"tools\":\x7b\x7d\x7d"

/-- A policy of serial 9 with a field that this version does not know. -/
def noteBytes : Bytes :=
  Utf8.encode "\x7b\"version\":\"1.0\",\"serial\":9,\"global_settings\":\x7b\x7d,\"tools\":\x7b\x7d,\"note\":\"\"\x7d"

def noteJson : PolicyJson where
  fromSlice bytes := if bytes = servedBytes then .ok servedPolicy else .error "unknown field `note`"
  topSerial bytes := if bytes = servedBytes then some 1 else if bytes = noteBytes then some 9 else none
  agrees {bytes policy serial} hread htop := by
    split at hread
    · rename_i hserved
      rw [if_pos hserved] at htop
      cases hread
      exact Option.some.inj htop
    · cases hread

def noteUpdater : Updater Unit Nat where
  json := noteJson
  verify _ _ _ := .ok ()
  fs := .ofTree [{ parent := 0, name := [], kind := .dir }] (by decide)
  regexNew := defaultRegexNew
  dest := etcPolicy

def noteAttempt : Attempt Unit where
  urls := .ok ("https://host/policy.json", "https://host/policy.json.sig")
  policyResponse := .answered true "200 OK" none (.ok servedBytes)
  sigResponse := .answered true "200 OK" none (.ok (List.replicate 64 0))
  key := .ok ()
  unreadable := false
  faults := noFaults

def noteDir : Dir := Finmap.singleton etcPolicy.name { bytes := noteBytes, mode := 0o600 }

theorem noteBytes_ne : noteBytes ≠ servedBytes := by decide +kernel

theorem fromSlice_served : noteUpdater.json.fromSlice servedBytes = .ok servedPolicy := by
  simp only [noteUpdater, noteJson, if_true]

theorem serialAt_noteDir : serialAt noteUpdater noteDir = some 9 := by
  have hfile : noteDir.lookup noteUpdater.dest.name = some { bytes := noteBytes, mode := 0o600 } :=
    Finmap.lookup_singleton_eq
  rw [serialAt, hfile]
  simp only [Option.bind_some, PolicyJson.recordedSerial, noteUpdater, noteJson, if_neg noteBytes_ne, if_true]
  rfl

theorem download_note : download noteUpdater noteAttempt =
    .ok { policyBytes := servedBytes, sigBytes := List.replicate 64 0, policy := servedPolicy } := by
  have hpolicy : fetchLimited "https://host/policy.json" noteAttempt.policyResponse = .ok servedBytes := by rfl
  have hsig : fetchLimited "https://host/policy.json.sig" noteAttempt.sigResponse = .ok (List.replicate 64 0) := by rfl
  have hvalid : servedPolicy.validate noteUpdater.fs noteUpdater.regexNew = .ok servedPolicy := by rfl
  unfold download
  refine bind_ok.mpr ⟨_, rfl, bind_ok.mpr ⟨_, hpolicy, bind_ok.mpr ⟨_, hsig, bind_ok.mpr ⟨(), rfl, ?_⟩⟩⟩⟩
  rw [if_neg (by simp)]
  exact bind_ok.mpr ⟨(), rfl, bind_ok.mpr ⟨_, mapError_ok.mpr fromSlice_served, bind_ok.mpr ⟨_, mapError_ok.mpr hvalid, rfl⟩⟩⟩

/-- With the served policy in place, it is read and the attempt is refused. -/
theorem run_raises_served :
    let dir : Dir := Finmap.singleton etcPolicy.name { bytes := servedBytes, mode := 0o600 }
    Along noteUpdater (Raises noteUpdater) [noteAttempt] dir ∧
      ∃ serial', serialAt noteUpdater (runAll noteUpdater [noteAttempt] dir) = some serial' ∧ 1 ≤ serial' := by
  intro dir
  have hfile : dir.lookup noteUpdater.dest.name = some { bytes := servedBytes, mode := 0o600 } :=
    Finmap.lookup_singleton_eq
  have htext : Utf8.decode? servedBytes ≠ none := by
    rw [servedBytes, Utf8.decode?_encode]
    exact Option.some_ne_none _
  have hserial : serialAt noteUpdater dir = some 1 := by
    rw [serialAt, hfile, Option.bind_some, PolicyJson.recordedSerial_of_read fromSlice_served]
    rfl
  exact run_raises noteUpdater hserial ⟨fun _ _ => ⟨rfl, _, _, hfile, htext, fromSlice_served⟩, trivial⟩

theorem currentSerial_note : currentSerial noteUpdater noteAttempt noteDir = none := by
  have hfile : noteDir.lookup noteUpdater.dest.name = some { bytes := noteBytes, mode := 0o600 } :=
    Finmap.lookup_singleton_eq
  rw [currentSerial, hfile]
  simp only [noteUpdater, noteJson, if_neg noteBytes_ne]
  split <;> rfl

/-- The policy of serial 1 takes the place of the one of serial 9. -/
theorem update_downgrades : ¬∀ (u : Updater Unit Nat) (attempts : List (Attempt Unit)) (dir : Dir) (serial : Int),
    serialAt u dir = some serial → ∃ serial', serialAt u (runAll u attempts dir) = some serial' ∧ serial ≤ serial' := by
  intro h
  obtain ⟨serial', hlast, hle⟩ := h noteUpdater [noteAttempt] noteDir 9 serialAt_noteDir
  have hcand := candidate_ok.mpr ⟨download_note, fun serial hserial => by
    rw [currentSerial_note] at hserial
    cases hserial⟩
  have hrun : runAll noteUpdater [noteAttempt] noteDir =
      (installUpdate noFaults etcPolicy servedBytes (List.replicate 64 0) noteDir).2 := by
    simp only [runAll, runWithClient, hcand]
    rfl
  have hok : (installUpdate noFaults etcPolicy servedBytes (List.replicate 64 0) noteDir).1.toOption.isSome = true := by
    decide +kernel
  have hnew := (installUpdate_leaves (Prod.eta _).symm).pair.resolve_left fun hold => hold.1 (eq_ok_get hok)
  rw [hrun, serialAt_newPair (u := noteUpdater) hnew] at hlast
  rw [PolicyJson.recordedSerial_of_read fromSlice_served] at hlast
  cases hlast
  exact absurd hle (by decide)

end SecureSudoers
