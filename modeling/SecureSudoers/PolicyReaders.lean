/-
Three programs read a signed policy, each with code of its own: the wrapper before
it runs a command, the installer before it grants the tools, and the update before
it puts the policy in place. They agree on what they accept (`installer_agrees`,
`update_agrees`), so what is granted is known to the wrapper (`granted_known`).
-/
import SecureSudoers.Install
import SecureSudoers.NetworkUpdate
import SecureSudoers.Start

namespace SecureSudoers

/-! ## The key -/

variable {host : SigningHost} {st : Storage} {ih : InstallHost} {policyPath pubkeyPath : Str}
  {key policyBytes sigBytes : Bytes} {policy : SecureSudoersPolicy}

theorem loadVerifyingKey_ok : host.loadVerifyingKey st pubkeyPath = .ok key ↔
    readPemBytes host.engine host.reader st pubkeyPath "SECURE SUDOERS PUBLIC KEY" = .ok key ∧ key.length = 32 ∧
      host.scheme.fromBytes key = .ok () := by
  unfold SigningHost.loadVerifyingKey
  rw [bind_ok]
  constructor
  · intro h
    obtain ⟨bytes, hread, h⟩ := h
    split at h
    · next hlength =>
      split at h
      · next hfrom =>
        cases h
        exact ⟨hread, hlength, hfrom⟩
      · cases h
    · cases h
  · intro h
    obtain ⟨hread, hlength, hfrom⟩ := h
    refine ⟨key, hread, ?_⟩
    rw [if_pos hlength, hfrom]

/-- A signed policy, by the key that is loaded. -/
theorem signed_iff : Signed host st policyPath pubkeyPath policyBytes ↔ ∃ key sigBytes,
    host.read st policyPath = .ok policyBytes ∧ host.loadVerifyingKey st pubkeyPath = .ok key ∧
      host.read st (policyPath ++ ".sig") = .ok sigBytes ∧ sigBytes.length = 64 ∧
        host.scheme.verify key policyBytes sigBytes = .ok () := by
  constructor
  · intro h
    obtain ⟨key, sigBytes, hread, hlength, hfrom, hsig, hsigLength, hverify⟩ := h.signature
    exact ⟨key, sigBytes, h.policy, loadVerifyingKey_ok.mpr ⟨hread, hlength, hfrom⟩, hsig, hsigLength, hverify⟩
  · intro h
    obtain ⟨key, sigBytes, hpolicy, hkey, hsig, hsigLength, hverify⟩ := h
    obtain ⟨hread, hlength, hfrom⟩ := loadVerifyingKey_ok.mp hkey
    exact ⟨hpolicy, key, sigBytes, hread, hlength, hfrom, hsig, hsigLength, hverify⟩

/-! ## The installer -/

/-- The installer finds the files of `st`, and has the library of the wrapper. -/
structure InstallHost.ReadsAs (ih : InstallHost) (host : SigningHost) (st : Storage) : Prop where
  read (path : Str) : ih.read path = host.read st path
  key (path : Str) (key : Bytes) : ih.loadVerifyingKey path = .ok key ↔ host.loadVerifyingKey st path = .ok key
  verify : ih.verify = host.scheme.verify
  fromSlice : ih.fromSlice = host.fromSlice
  regexNew : ih.regexNew = host.regexNew

theorem verifyPolicySignature_ok : verifyPolicySignature ih policyPath policyBytes pubkeyPath = .ok () ↔
    ∃ key sigBytes, ih.loadVerifyingKey pubkeyPath = .ok key ∧ ih.read (policyPath ++ ".sig") = .ok sigBytes ∧
      sigBytes.length = 64 ∧ ih.verify key policyBytes sigBytes = .ok () := by
  rw [verifyPolicySignature, bind_ok]
  constructor
  · intro h
    obtain ⟨key, hkey, h⟩ := h
    obtain ⟨sigBytes, hsig, h⟩ := bind_ok.mp h
    split at h
    · cases h
    · next hlength => exact ⟨key, sigBytes, hkey, mapError_ok.mp hsig, not_not.mp hlength, mapError_ok.mp h⟩
  · intro h
    obtain ⟨key, sigBytes, hkey, hsig, hlength, hverify⟩ := h
    refine ⟨key, hkey, bind_ok.mpr ⟨sigBytes, mapError_ok.mpr hsig, ?_⟩⟩
    rw [if_neg (not_not.mpr hlength), hverify]
    rfl

theorem loadPolicyWithVerifiedSignature_ok {t : Tree} :
    loadPolicyWithVerifiedSignature ih t policyPath pubkeyPath = .ok policy ↔ ∃ policyBytes parsed,
      ih.read policyPath = .ok policyBytes ∧ verifyPolicySignature ih policyPath policyBytes pubkeyPath = .ok () ∧
        ih.fromSlice policyBytes = .ok parsed ∧ parsed.validate t.fs ih.regexNew = .ok policy := by
  rw [loadPolicyWithVerifiedSignature, bind_ok]
  constructor
  · intro h
    obtain ⟨bytes, hread, h⟩ := h
    obtain ⟨_, hverify, h⟩ := bind_ok.mp h
    obtain ⟨parsed, hparsed, h⟩ := bind_ok.mp h
    exact ⟨bytes, parsed, mapError_ok.mp hread, hverify, mapError_ok.mp hparsed, h⟩
  · intro h
    obtain ⟨bytes, parsed, hread, hverify, hparsed, h⟩ := h
    exact ⟨bytes, mapError_ok.mpr hread, bind_ok.mpr ⟨_, hverify, bind_ok.mpr ⟨parsed, mapError_ok.mpr hparsed, h⟩⟩⟩

/-- The installer loads what the wrapper loads. -/
theorem installer_agrees (h : ih.ReadsAs host st) :
    loadPolicyWithVerifiedSignature ih st.tree policyPath pubkeyPath = .ok policy ↔
      host.loadPolicyWithPubkey st policyPath pubkeyPath = .ok policy := by
  rw [loadPolicyWithVerifiedSignature_ok, loadPolicyWithPubkey_iff]
  simp only [signed_iff, verifyPolicySignature_ok, h.read, h.key, h.verify, h.fromSlice, h.regexNew]
  constructor
  · intro h
    obtain ⟨bytes, parsed, hread, ⟨key, sigBytes, hkey, hsig, hlength, hverify⟩, hparsed⟩ := h
    exact ⟨bytes, parsed, ⟨key, sigBytes, hread, hkey, hsig, hlength, hverify⟩, hparsed⟩
  · intro h
    obtain ⟨bytes, parsed, ⟨key, sigBytes, hread, hkey, hsig, hlength, hverify⟩, hparsed⟩ := h
    exact ⟨bytes, parsed, hread, ⟨key, sigBytes, hkey, hsig, hlength, hverify⟩, hparsed⟩

/-! ## The update -/

/-- The update has the library of the wrapper, and the same key and files around it. -/
structure Updater.ReadsAs (u : Updater Bytes (List Bytes)) (a : Attempt Bytes) (host : SigningHost) (st : Storage)
    (pubkeyPath : Str) : Prop where
  key (key : Bytes) : a.key = .ok key ↔ host.loadVerifyingKey st pubkeyPath = .ok key
  verify : u.verify = host.scheme.verify
  fromSlice : u.json.fromSlice = host.fromSlice
  regexNew : u.regexNew = host.regexNew
  fs : u.fs = st.tree.fs

variable {u : Updater Bytes (List Bytes)} {a : Attempt Bytes}

/-- The two requests are answered with these octets. -/
def Attempt.Serves (a : Attempt Bytes) (policyBytes sigBytes : Bytes) : Prop :=
  ∃ policyUrl sigUrl, a.urls = .ok (policyUrl, sigUrl) ∧ fetchLimited policyUrl a.policyResponse = .ok policyBytes ∧
    fetchLimited sigUrl a.sigResponse = .ok sigBytes

theorem download_ok (h : a.Serves policyBytes sigBytes) :
    (∃ new, download u a = .ok new ∧ new.policy = policy) ↔ ∃ key parsed, a.key = .ok key ∧ sigBytes.length = 64 ∧
      u.verify key policyBytes sigBytes = .ok () ∧ u.json.fromSlice policyBytes = .ok parsed ∧
        parsed.validate u.fs u.regexNew = .ok policy := by
  obtain ⟨policyUrl, sigUrl, hurls, hpolicy, hsig⟩ := h
  have hdown : download u a = (do
      let key ← a.key
      if sigBytes.length ≠ 64 then
        .error (.validation ("Signature must be 64 bytes; got " ++ Nat.toDigits 10 sigBytes.length))
      else do
        (u.verify key policyBytes sigBytes).mapError fun e => .security ("Signature verification failed: " ++ e)
        let parsed ← (u.json.fromSlice policyBytes).mapError fun e =>
          .parse ("Downloaded policy is not valid JSON: " ++ e)
        let policy ← (parsed.validate u.fs u.regexNew).mapError fun e =>
          .validation ("Downloaded policy failed semantic validation: " ++ e.display)
        .ok { policyBytes, sigBytes, policy }) := by
    unfold download
    rw [hurls]
    dsimp only [bind, Except.bind]
    rw [hpolicy, hsig]
  rw [hdown]
  constructor
  · intro h
    obtain ⟨new, h, rfl⟩ := h
    obtain ⟨key, hkey, h⟩ := bind_ok.mp h
    split at h
    · cases h
    · next hlength =>
      obtain ⟨_, hverify, h⟩ := bind_ok.mp h
      obtain ⟨parsed, hparsed, h⟩ := bind_ok.mp h
      obtain ⟨policy, hvalid, h⟩ := bind_ok.mp h
      cases h
      exact ⟨key, parsed, hkey, not_not.mp hlength, mapError_ok.mp hverify, mapError_ok.mp hparsed, mapError_ok.mp hvalid⟩
  · intro h
    obtain ⟨key, parsed, hkey, hlength, hverify, hparsed, hvalid⟩ := h
    refine ⟨⟨policyBytes, sigBytes, policy⟩, bind_ok.mpr ⟨key, hkey, ?_⟩, rfl⟩
    rw [if_neg (not_not.mpr hlength)]
    exact bind_ok.mpr ⟨_, mapError_ok.mpr hverify, bind_ok.mpr ⟨parsed, mapError_ok.mpr hparsed,
      bind_ok.mpr ⟨policy, mapError_ok.mpr hvalid, rfl⟩⟩⟩

/-- **Three programs, one verdict.** The wrapper and the installer load the same
policies; and an update accepts a download, and validates it to a policy, exactly
where the wrapper would load that policy from files with these octets. -/
theorem policy_readers_agree (hinstall : ih.ReadsAs host st) (hupdate : u.ReadsAs a host st pubkeyPath)
    (hserves : a.Serves policyBytes sigBytes) (hpolicy : host.read st policyPath = .ok policyBytes)
    (hsig : host.read st (policyPath ++ ".sig") = .ok sigBytes) :
    (loadPolicyWithVerifiedSignature ih st.tree policyPath pubkeyPath = .ok policy ↔
      host.loadPolicyWithPubkey st policyPath pubkeyPath = .ok policy) ∧
    ((∃ new, download u a = .ok new ∧ new.policy = policy) ↔
      host.loadPolicyWithPubkey st policyPath pubkeyPath = .ok policy) := by
  refine ⟨installer_agrees hinstall, ?_⟩
  rw [download_ok hserves, loadPolicyWithPubkey_iff]
  simp only [signed_iff, hupdate.key, hupdate.verify, hupdate.fromSlice, hupdate.regexNew, hupdate.fs, hpolicy, hsig]
  constructor
  · intro h
    obtain ⟨key, parsed, hkey, hlength, hverify, hparsed⟩ := h
    exact ⟨policyBytes, parsed, ⟨key, sigBytes, rfl, hkey, rfl, hlength, hverify⟩, hparsed⟩
  · intro h
    obtain ⟨bytes, parsed, ⟨key, sig, hbytes, hkey, hsame, hlength, hverify⟩, hparsed⟩ := h
    cases hbytes
    cases hsame
    exact ⟨key, parsed, hkey, hlength, hverify, hparsed⟩

/-! ## A host with a signed policy -/

def etcStorage : Storage where
  tree := .ofList [(["etc"], .directory), (["etc", "secure-sudoers"], .directory),
    (["etc", "secure-sudoers", "policy.json"], .file 1), (["etc", "secure-sudoers", "policy.json.sig"], .file 2),
    (["etc", "secure-sudoers", "secure_sudoers_public_key.pem"], .file 3), (["usr"], .directory),
    (["usr", "local"], .directory), (["usr", "local", "bin"], .directory),
    (["usr", "local", "bin", "secure-sudoers"], .file 10)]
  flags _ := 0
  content inode :=
    if inode.ino = 1 then Utf8.encode policyText
    else if inode.ino = 2 then policySignature
    else if inode.ino = 3 then Utf8.encode (keyFileContent base64Standard "SECURE SUDOERS PUBLIC KEY" verifyingKey)
    else []

def ReadError.toError : ReadError → Error
  | .error e => e
  | .notUtf8 context => .system context

/-- The installer on these files; nothing is refused. -/
def etcInstall : InstallHost where
  refusals _ _ := none
  euid := 0
  read := (policyHost none).read etcStorage
  loadVerifyingKey path := ((policyHost none).loadVerifyingKey etcStorage path).mapError ReadError.toError
  verify := policyScheme.verify
  fromSlice := (policyHost none).fromSlice
  regexNew := defaultRegexNew
  writeSudoersFileTo _ _ := .ok ()
  chattr _ := none

theorem etcInstall_reads : etcInstall.ReadsAs (policyHost none) etcStorage where
  read _ := rfl
  key _ _ := mapError_ok
  verify := rfl
  fromSlice := rfl
  regexNew := rfl

def etcJson : PolicyJson where
  fromSlice := (policyHost none).fromSlice
  topSerial _ := none
  agrees _ h := nomatch h

def etcUpdater : Updater Bytes (List Bytes) where
  json := etcJson
  verify := policyScheme.verify
  fs := etcStorage.tree.fs
  regexNew := defaultRegexNew
  dest := etcPolicy

/-- The server has the files that are in place. -/
def etcAttempt : Attempt Bytes where
  urls := .ok ("https://example.com/policy.json", "https://example.com/policy.json.sig")
  policyResponse := .answered true "200 OK" none (.ok (Utf8.encode policyText))
  sigResponse := .answered true "200 OK" (some 64) (.ok policySignature)
  key := ((policyHost none).loadVerifyingKey etcStorage PUBLIC_KEY_PATH).mapError ReadError.toError
  unreadable := false
  faults := noFaults

theorem etcUpdater_reads : etcUpdater.ReadsAs etcAttempt (policyHost none) etcStorage PUBLIC_KEY_PATH where
  key _ := by simp only [etcAttempt, mapError_ok]
  verify := rfl
  fromSlice := rfl
  regexNew := rfl
  fs := rfl

theorem etcAttempt_serves : etcAttempt.Serves (Utf8.encode policyText) policySignature :=
  ⟨_, _, rfl, by decide +kernel, by decide +kernel⟩

theorem policy_readers_agree_etc :
    (loadPolicyWithVerifiedSignature etcInstall etcStorage.tree POLICY_PATH PUBLIC_KEY_PATH = .ok signedPolicy ↔
      (policyHost none).loadPolicyWithPubkey etcStorage POLICY_PATH PUBLIC_KEY_PATH = .ok signedPolicy) ∧
    ((∃ new, download etcUpdater etcAttempt = .ok new ∧ new.policy = signedPolicy) ↔
      (policyHost none).loadPolicyWithPubkey etcStorage POLICY_PATH PUBLIC_KEY_PATH = .ok signedPolicy) := by
  have hpolicy : (policyHost none).read etcStorage POLICY_PATH = .ok (Utf8.encode policyText) := by decide +kernel
  have hsig : (policyHost none).read etcStorage (POLICY_PATH ++ ".sig") = .ok policySignature := by decide +kernel
  exact policy_readers_agree etcInstall_reads etcUpdater_reads etcAttempt_serves hpolicy hsig

/-! ## What is granted -/

/-- **What an installation grants, the wrapper knows.** Where the drop-in is written,
a release build that starts on the same files loads the policy, and each command of the
drop-in is the entry point of a tool of that policy. -/
theorem granted_known {s : Start} {w : WrittenDropIn} (hbuild : s.debugAssertions = false)
    (hreads : ih.ReadsAs s.host s.storage) (h : (installWithPaths ih s.storage.tree {}).1 = some w) :
    ∃ policy, s.loadPolicy s.policyPath = .ok policy ∧ ∀ path ∈ dropInCommands w.content,
      ∃ tool ∈ policy.tools.keys, path = entryPath "/usr/local/bin" tool := by
  obtain ⟨policy, hload, hw⟩ := installWithPaths_written.mp h
  have hpaths : s.policyPath = POLICY_PATH ∧ s.pubkeyPath = PUBLIC_KEY_PATH := by
    simp [Start.policyPath, Start.pubkeyPath, Start.override, hbuild]
  refine ⟨policy, ?_, ?_⟩
  · rw [Start.loadPolicy, hpaths.1, hpaths.2]
    exact (installer_agrees hreads).mp hload
  · rw [hw]
    dsimp only
    intro path hpath
    have hlinks := @installToolLinksTo_eq ih.refusals s.storage.tree ih.euid (policy.tools.keys.mergeSort strLe)
      "/usr/local/bin/secure-sudoers" "/usr/local/bin"
    obtain ⟨e, he⟩ | ⟨ctx, -, heq⟩ := hlinks
    · rw [he, dropInCommands_generate defaultEntryPointDir_plain (by decide) (by simp)] at hpath
      simp [grantedPaths] at hpath
    · rw [heq, dropInCommands_generate defaultEntryPointDir_plain (by decide)
        fun tool h => (linkTools_valid tool h).1] at hpath
      obtain ⟨tool, htool, hentry⟩ := mem_grantedPaths.mp hpath
      exact ⟨tool, List.mem_mergeSort.mp (linkTools_sublist.mem htool), hentry⟩

/-- `apt` is granted, and known. -/
theorem granted_known_apt : ∃ w, (installWithPaths etcInstall etcStorage.tree {}).1 = some w ∧
    dropInCommands w.content = ["/usr/local/bin/apt".toList] ∧
      ∃ policy, (policyHost none).loadPolicyWithPubkey etcStorage POLICY_PATH PUBLIC_KEY_PATH = .ok policy ∧
        ∃ tool ∈ policy.tools.keys, "/usr/local/bin/apt".toList = entryPath "/usr/local/bin" tool := by
  have hcommands : (installWithPaths etcInstall etcStorage.tree {}).1.map (fun w => dropInCommands w.content) =
      some ["/usr/local/bin/apt".toList] := by decide +kernel
  obtain ⟨w, hw, hcontent⟩ := Option.map_eq_some_iff.mp hcommands
  obtain ⟨policy, hload, hknown⟩ :=
    @granted_known etcInstall { aptStart with debugAssertions := false, storage := etcStorage } w rfl etcInstall_reads hw
  exact ⟨w, hw, hcontent, policy, hload, hknown _ (by rw [hcontent]; exact List.mem_cons_self)⟩

end SecureSudoers
