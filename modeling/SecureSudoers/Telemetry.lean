/-
The security events the program writes (`telemetry.rs`), and whom they are
about (`resolve_identity_triad` in `main.rs`).
-/
import SecureSudoers.Invocation

namespace SecureSudoers

/-- `telemetry::event_id`, as far as it is used. -/
inductive EventId where
  | commandApproved
  | policyViolation
  | identitySpoofing
  | execFailure
  deriving DecidableEq, Repr

def EventId.text : EventId → Str
  | .commandApproved => "SEC-101"
  | .policyViolation => "SEC-403"
  | .identitySpoofing => "SEC-500"
  | .execFailure => "SEC-503"

/-- `AccountType`; `localUser` is its `Local`. -/
inductive AccountType where
  | system
  | localUser
  | network
  | unknown
  deriving DecidableEq, Repr

structure IdentityInfo where
  user : Str
  uid : Nat
  euid : Nat
  sudoUid : Option Nat
  accountType : AccountType
  deriving DecidableEq, Repr

structure ContextInfo where
  tool : Str
  binaryPath : Str
  binaryHash : Str
  deriving DecidableEq, Repr

structure PolicyInfo where
  status : Str
  ruleId : Option Str
  reason : Option Str
  deriving DecidableEq, Repr

structure SecurityEvent where
  eventId : EventId
  txnId : Str
  timestamp : Str
  identity : IdentityInfo
  context : ContextInfo
  policy : PolicyInfo
  args : List Str
  deriving DecidableEq, Repr

/-! ## The identity -/

/-- What the system says of the user: the ids of the process, the name of the
real one, and the lines of `/etc/passwd` as they are read. -/
structure Accounts where
  uid : Nat
  euid : Nat
  userName : Except Errno (Option Str)
  passwd : Except Errno (List (Except Errno Bytes))

/-- `str::parse::<u32>`. -/
def parseU32 (s : Str) : Option Nat :=
  let digits := if s.head? = some '+' then s.tail else s
  if digits = [] ∨ !digits.all Char.isDigit then none
  else
    let n := digits.foldl (fun n d => 10 * n + (d.toNat - '0'.toNat)) 0
    if n < UInt32.size then some n else none

/-- `trim_end_matches` of line ends. -/
def trimLineEnd (line : Str) : Str := (line.reverse.dropWhile fun c => c == '\n' || c == '\r').reverse

/-- `classify_account_type_from_reader`; a line that cannot be read or is no text ends it. -/
def classifyAccountTypeFromReader (username : Str) (uid : Nat) : List (Except Errno Bytes) → Option AccountType
  | [] => some .network
  | .error _ :: _ => none
  | .ok bytes :: rest =>
    match Utf8.decode? bytes with
    | none => none
    | some line =>
      let entry := trimLineEnd line
      if entry = [] ∨ Str.startsWith entry "#" then classifyAccountTypeFromReader username uid rest
      else match Str.splitOnce ':' entry with
        | some (entryUsername, _) =>
          if entryUsername = username then some (if uid < 1000 then .system else .localUser)
          else classifyAccountTypeFromReader username uid rest
        | none => classifyAccountTypeFromReader username uid rest

def classifyAccountType (accounts : Accounts) (username : Str) : AccountType :=
  match accounts.passwd with
  | .error _ => .unknown
  | .ok lines => (classifyAccountTypeFromReader username accounts.uid lines).getD .unknown

def resolveIdentityTriad (accounts : Accounts) (env : Str → Option Str) : IdentityInfo :=
  let resolvedUser := match accounts.userName with
    | .ok user => user
    | .error _ => none
  { user := resolvedUser.getD ("uid:" ++ Nat.toDigits 10 accounts.uid)
    uid := accounts.uid
    euid := accounts.euid
    sudoUid := (env "SUDO_UID").bind parseU32
    accountType := (resolvedUser.map (classifyAccountType accounts)).getD .unknown }

end SecureSudoers
