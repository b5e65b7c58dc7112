/-
The policy's data model (`models.rs`): parameter rules, tool policies, the
global settings, and the values validation hands on. A compiled regular
expression is the predicate it decides on texts; which texts compile, and to
what, is the parameter `regexNew` of the functions that compile one.
-/
import Mathlib.Data.List.Nodup
import SecureSudoers.FileSystem

namespace SecureSudoers

/-- `HashMap<String, V>`: entries with distinct keys, in the order the map enumerates them. -/
structure HashMap (V : Type) where
  entries : List (Str × V)
  nodup : (entries.map Prod.fst).Nodup

namespace HashMap

variable {V : Type}

def get (m : HashMap V) (k : Str) : Option V := (m.entries.find? (·.1 == k)).map Prod.snd

def containsKey (m : HashMap V) (k : Str) : Bool := (m.get k).isSome

def keys (m : HashMap V) : List Str := m.entries.map Prod.fst

def empty : HashMap V := ⟨[], List.nodup_nil⟩

def single (k : Str) (v : V) : HashMap V := ⟨[(k, v)], List.nodup_singleton _⟩

theorem mem_of_get {m : HashMap V} {k : Str} {v : V} (h : m.get k = some v) : (k, v) ∈ m.entries := by
  obtain ⟨⟨k', v'⟩, hf, hv⟩ := Option.map_eq_some_iff.mp h
  have hk := List.find?_some hf
  simp only [beq_iff_eq] at hk hv
  subst hk hv
  exact List.mem_of_find?_eq_some hf

theorem get_of_mem {m : HashMap V} {k : Str} {v : V} (h : (k, v) ∈ m.entries) : m.get k = some v := by
  have hsome : (m.entries.find? (·.1 == k)).isSome := by
    rw [List.find?_isSome]
    exact ⟨_, h, by simp⟩
  obtain ⟨⟨k', v'⟩, hf⟩ := Option.isSome_iff_exists.mp hsome
  have hk := List.find?_some hf
  simp only [beq_iff_eq] at hk
  subst hk
  have := List.inj_on_of_nodup_map m.nodup (List.mem_of_find?_eq_some hf) h rfl
  simp only [Prod.mk.injEq, true_and] at this
  simp [get, hf, this]

theorem get_eq_some {m : HashMap V} {k : Str} {v : V} : m.get k = some v ↔ (k, v) ∈ m.entries :=
  ⟨mem_of_get, get_of_mem⟩

end HashMap

/-- A compiled `regex::Regex`: the texts it matches. -/
structure Regex where
  isMatch : Str → Bool

inductive ParameterType where
  | bool
  | string
  | path
  deriving DecidableEq, Repr

structure ParameterConfig where
  paramType : ParameterType
  sensitive : Bool := false
  regex : Option Str := none
  compiledRegex : Option Regex := none
  allowed : Option (List Str) := none
  disallowed : Option (List Str) := none
  help : Option Str := none

namespace ParameterConfig

def isExplicitlyDisallowed (c : ParameterConfig) (val : Str) : Bool :=
  match c.disallowed with
  | some disallowed => disallowed.any (· == val)
  | none => false

def matchesAllowedOrRegex (c : ParameterConfig) (val : Str) : Bool :=
  let allowedMatch := c.allowed.map fun allowed => allowed.any (· == val)
  let regexMatch := c.regex.map fun _ => c.compiledRegex.any fun re => re.isMatch val
  match allowedMatch, regexMatch with
  | some allowed, some regex => allowed || regex
  | some allowed, none => allowed
  | none, some regex => regex
  | none, none => true

/-- `ParameterConfig::matches`. -/
def admits (c : ParameterConfig) (val : Str) : Bool :=
  if c.isExplicitlyDisallowed val then false else c.matchesAllowedOrRegex val

end ParameterConfig

structure IsolationSettings where
  unshareNetwork : Bool := false
  unsharePid : Bool := false
  unshareIpc : Bool := true
  unshareUts : Bool := true
  privateMounts : List Str := []
  readonlyMounts : List Str := []
  deriving DecidableEq, Repr

structure ToolPolicy where
  id : Option Str := none
  realBinary : Str
  verbs : List Str := []
  parameters : HashMap ParameterConfig := .empty
  positional : Option ParameterConfig := none
  helpDescription : Str := []
  isolation : Option IsolationSettings := none
  envWhitelist : List Str := []

def defaultSafeArgRegex : Str := "^[a-zA-Z0-9._+\\-=:,@/]+$"

/-- What the default `safe_arg_regex` matches. -/
def defaultSafeArg : Regex :=
  ⟨fun s => !s.isEmpty && s.all fun c => c.isAlphanum || "._+-=:,@/".toList.contains c⟩

/-- A regex compiler that knows the default pattern alone. -/
def defaultRegexNew (pattern : Str) : Option Regex :=
  if pattern = defaultSafeArgRegex then some defaultSafeArg else none

def defaultCommonEnvWhitelist : List Str := ["TERM", "LANG", "LC_ALL", "LS_COLORS"]

def defaultBlockedPaths : List Str :=
  ["/etc/shadow", "/etc/gshadow", "/etc/sudoers", "/etc/secure-sudoers", "/etc/ssh", "/etc/pam.d", "/root",
    "/dev/mem", "/dev/kmem", "/dev/port", "/proc/kcore"]

inductive UnauthorizedAuditMode where
  | minimal
  | keysOnly
  | full
  deriving DecidableEq, Repr

structure GlobalSettings where
  logDestination : Str := "syslog"
  logFormat : Str := "text"
  adminContact : Str := "Please contact your administrator."
  safeArgRegex : Str := defaultSafeArgRegex
  commonEnvWhitelist : List Str := defaultCommonEnvWhitelist
  blockedPaths : List Str := defaultBlockedPaths
  unauthorizedAuditMode : UnauthorizedAuditMode := .minimal
  defaultIsolation : Option IsolationSettings := none

structure SecureSudoersPolicy where
  version : Str := "1.0"
  serial : Int := 0
  globalSettings : GlobalSettings
  tools : HashMap ToolPolicy

/-- What a path argument is: the context of a check. -/
inductive ValidationContext where
  | positional
  | delimitedPositional
  | flag (name : Str)
  deriving DecidableEq, Repr

def ValidationContext.display : ValidationContext → Str
  | .positional => "positional"
  | .delimitedPositional => "delimited positional"
  | .flag s => "flag '" ++ s ++ "'"

/-- A resolved path: its canonical text and the descriptor held open on it. -/
structure SecurePath (D : Type) where
  path : Str
  fd : D
  deriving DecidableEq, Repr

/-- The characters of `^[a-zA-Z0-9._+-]+$`. -/
def isToolNameChar (c : Char) : Bool :=
  c.isAlphanum || c == '.' || c == '_' || c == '+' || c == '-'

def isValidToolName (name : Str) : Bool :=
  if name = [] ∨ name = ['.'] ∨ name = ['.', '.'] then false
  else name.all isToolNameChar

end SecureSudoers
