/-
The invocation (`helpers/sudo_command.rs`, `helpers/invocation.rs`): the tool
and its arguments, read from the process's arguments and held against what
sudo says in `SUDO_COMMAND`.

The arguments come from `/proc/self/cmdline`, or from `std::env::args` where
that cannot be used. Both are the same octets, and `std::env::args` panics on
octets that are no text: `parseInvocationCurrentProcess_eq`.
-/
import SecureSudoers.Error

namespace SecureSudoers

/-! ## `SUDO_COMMAND` -/

/-- `char::is_whitespace`. -/
def isWhitespace (c : Char) : Bool :=
  let n := c.toNat
  (9 ≤ n && n ≤ 13) || n == 0x20 || n == 0x85 || n == 0xA0 || n == 0x1680 || (0x2000 ≤ n && n ≤ 0x200A) ||
    n == 0x2028 || n == 0x2029 || n == 0x202F || n == 0x205F || n == 0x3000

/-- `str::trim`. -/
def trim (s : Str) : Str := ((s.dropWhile isWhitespace).reverse.dropWhile isWhitespace).reverse

/-- What is graphic in ASCII is no white space. -/
theorem graphic_not_whitespace {c : Char} (hlo : 33 ≤ c.toNat) (hhi : c.toNat < 127) : isWhitespace c = false := by
  simp only [isWhitespace, Bool.or_eq_false_iff, Bool.and_eq_false_iff, decide_eq_false_iff_not, beq_eq_false_iff_ne]
  omega

/-- What can follow a token: the end of the text or white space. -/
def Breaks (t : Str) : Prop := ∀ c ∈ t.head?, isWhitespace c = true

instance {t : Str} : Decidable (Breaks t) :=
  decidable_of_iff (t.head?.all isWhitespace = true) (by cases t <;> simp [Breaks])

theorem breaks_nil : Breaks [] := fun _ h => nomatch h

theorem Breaks.cases {t : Str} (h : Breaks t) : t = [] ∨ ∃ c more, t = c :: more ∧ isWhitespace c = true := by
  cases t with
  | nil => exact .inl rfl
  | cons c more => exact .inr ⟨c, more, rfl, h c rfl⟩

def singleQuote : Char := Char.ofNat 39
def doubleQuote : Char := Char.ofNat 34
def backslash : Char := Char.ofNat 92

def basename (token : Str) : Str := (Path.fileName token).getD token

inductive SudoCommandTokenError where
  | invalidPrefix
  | missingDelegatedCommand
  deriving DecidableEq, Repr

/-- The loop over a token's characters: the token, and what is left after the
white space that ends it. There is none when the text ends in a quote or after
a backslash. -/
def scanToken : Option Char → Bool → Str → Option (Str × Str)
  | quote, escaped, [] => if escaped || quote.isSome then none else some ([], [])
  | quote, true, ch :: chars => (scanToken quote false chars).map fun (token, rest) => (ch :: token, rest)
  | quote, false, ch :: chars =>
    if ch = backslash ∧ quote ≠ some singleQuote then scanToken quote true chars
    else match quote with
      | some q =>
        if ch = q then scanToken none false chars
        else (scanToken (some q) false chars).map fun (token, rest) => (ch :: token, rest)
      | none =>
        if ch = singleQuote ∨ ch = doubleQuote then scanToken (some ch) false chars
        else if isWhitespace ch then some ([], chars)
        else (scanToken none false chars).map fun (token, rest) => (ch :: token, rest)

/-- `split_sudo_command_prefix_tokens`. -/
def splitSudoCommandPrefixTokens : Str → Nat → Option (List Str)
  | _, 0 => some []
  | s, maxTokens + 1 =>
    match s.dropWhile isWhitespace with
    | [] => some []
    | chars => do
      let (token, rest) ← scanToken none false chars
      let tokens ← splitSudoCommandPrefixTokens rest maxTokens
      some (token :: tokens)

/-- The names of the program itself. -/
def isWrapper (name : Str) : Bool := name == "secure-sudoers".toList || name == "secure_sudoers".toList

/-- `delegated_command_token_from_sudo_command`. -/
def delegatedCommandTokenFromSudoCommand (sudoCmd : Str) : Except SudoCommandTokenError Str :=
  match splitSudoCommandPrefixTokens sudoCmd 1 with
  | none => .error .invalidPrefix
  | some firstTokens =>
    let firstToken := firstTokens.head?.getD []
    if isWrapper (basename firstToken) && !firstToken.isEmpty then
      match splitSudoCommandPrefixTokens sudoCmd 2 with
      | none => .error .invalidPrefix
      | some tokens =>
        match tokens[1]? with
        | some token => .ok token
        | none => .error .missingDelegatedCommand
    else .ok firstToken

/-- A character a token can hold without quoting. -/
structure IsPlain (c : Char) : Prop where
  no_space : isWhitespace c = false
  ne_singleQuote : c ≠ singleQuote
  ne_doubleQuote : c ≠ doubleQuote
  ne_backslash : c ≠ backslash

instance {c : Char} : Decidable (IsPlain c) :=
  decidable_of_iff (isWhitespace c = false ∧ c ≠ singleQuote ∧ c ≠ doubleQuote ∧ c ≠ backslash)
    ⟨fun ⟨a, b, c, d⟩ => ⟨a, b, c, d⟩, fun ⟨a, b, c, d⟩ => ⟨a, b, c, d⟩⟩

/-- Plain characters are read as they are. -/
theorem scanToken_plain : ∀ {w rest : Str}, (∀ c ∈ w, IsPlain c) →
    scanToken none false (w ++ rest) = (scanToken none false rest).map fun (token, rest) => (w ++ token, rest)
  | [], rest, _ => by cases h : scanToken none false rest <;> simp [h]
  | c :: w, rest, h => by
    rw [List.forall_mem_cons] at h
    obtain ⟨hspace, hsingle, hdouble, hback⟩ := h.1
    rw [List.cons_append, scanToken, if_neg (fun h => hback h.1)]
    dsimp only
    rw [if_neg (not_or.mpr ⟨hsingle, hdouble⟩), hspace, if_neg Bool.false_ne_true, scanToken_plain h.2, Option.map_map]
    rfl

/-- What ends a word: the end of the text or a space. -/
def EndsWord (rest : Str) : Prop := rest = [] ∨ ∃ more, rest = ' ' :: more

theorem splitSudoCommandPrefixTokens_word {w rest : Str} (hw : w ≠ []) (h : ∀ c ∈ w, IsPlain c) (hrest : EndsWord rest) :
    splitSudoCommandPrefixTokens (w ++ rest) 1 = some [w] := by
  obtain ⟨c, w, rfl⟩ := List.exists_cons_of_ne_nil hw
  have hdrop : (c :: w ++ rest).dropWhile isWhitespace = c :: w ++ rest := by
    rw [List.cons_append, List.dropWhile_cons, (h c List.mem_cons_self).no_space]
    rfl
  have hend : ∃ more, scanToken none false rest = some ([], more) := by
    rcases hrest with rfl | ⟨more, rfl⟩
    · exact ⟨[], rfl⟩
    · exact ⟨more, rfl⟩
  obtain ⟨more, hend⟩ := hend
  have hscan : scanToken none false (c :: w ++ rest) = some (c :: w, more) := by
    rw [scanToken_plain h, hend, Option.map_some]
    dsimp only
    rw [List.append_nil]
  rw [splitSudoCommandPrefixTokens, hdrop]
  dsimp only [List.cons_append] at hscan ⊢
  rw [hscan]
  rfl

/-- A command that starts with a plain word other than the program's own name names that word. -/
theorem delegatedCommandToken_word {w rest : Str} (hw : w ≠ []) (h : ∀ c ∈ w, IsPlain c) (hrest : EndsWord rest)
    (hname : isWrapper (basename w) = false) : delegatedCommandTokenFromSudoCommand (w ++ rest) = .ok w := by
  unfold delegatedCommandTokenFromSudoCommand
  rw [splitSudoCommandPrefixTokens_word hw h hrest]
  simp only [List.head?_cons, Option.getD_some, hname, Bool.false_and, Bool.false_eq_true, ite_false]

/-- The command `SUDO_COMMAND` delegates to: its first token or, after the
program's own name, its second. An empty token is no command. -/
inductive Delegated : Str → Str → Prop
  | direct {sudoCmd token} : splitSudoCommandPrefixTokens sudoCmd 1 = some [token] → token ≠ [] →
      isWrapper (basename token) = false → Delegated sudoCmd token
  | wrapped {sudoCmd wrapper token} : splitSudoCommandPrefixTokens sudoCmd 2 = some [wrapper, token] → token ≠ [] →
      isWrapper (basename wrapper) = true → Delegated sudoCmd token

theorem splitSudoCommandPrefixTokens_succ {s : Str} {n : Nat} {tokens : List Str} :
    splitSudoCommandPrefixTokens s (n + 1) = some tokens ↔
      (s.dropWhile isWhitespace = [] ∧ tokens = []) ∨
      s.dropWhile isWhitespace ≠ [] ∧ ∃ token rest more,
        scanToken none false (s.dropWhile isWhitespace) = some (token, rest) ∧
          splitSudoCommandPrefixTokens rest n = some more ∧ tokens = token :: more := by
  rw [splitSudoCommandPrefixTokens]
  cases s.dropWhile isWhitespace with
  | nil => simp [eq_comm]
  | cons c chars =>
    cases h : scanToken none false (c :: chars) with
    | none => simp [h]
    | some found =>
      obtain ⟨token, rest⟩ := found
      simp only [h, reduceCtorEq, false_and, false_or, ne_eq, not_false_eq_true, true_and, Option.bind_eq_bind,
        Option.bind_some, Option.bind_eq_some_iff, Option.some.injEq, Prod.mk.injEq]
      constructor
      · rintro ⟨more, hmore, rfl⟩
        exact ⟨token, rest, more, ⟨rfl, rfl⟩, hmore, rfl⟩
      · rintro ⟨_, _, more, ⟨rfl, rfl⟩, hmore, rfl⟩
        exact ⟨more, hmore, rfl⟩

/-- The first token is the same however many are asked for. -/
theorem splitSudoCommandPrefixTokens_first {s first : Str} {n : Nat} {more : List Str}
    (h : splitSudoCommandPrefixTokens s (n + 1) = some (first :: more)) :
    splitSudoCommandPrefixTokens s 1 = some [first] := by
  obtain ⟨-, h⟩ | ⟨hs, token, rest, tokens, hscan, -, h⟩ := splitSudoCommandPrefixTokens_succ.mp h
  · cases h
  · cases h
    exact splitSudoCommandPrefixTokens_succ.mpr (.inr ⟨hs, first, rest, [], hscan, rfl, rfl⟩)

theorem splitSudoCommandPrefixTokens_length : ∀ {n : Nat} {s : Str} {tokens : List Str},
    splitSudoCommandPrefixTokens s n = some tokens → tokens.length ≤ n
  | 0, s, tokens, h => by simp_all [splitSudoCommandPrefixTokens]
  | n + 1, s, tokens, h => by
    obtain ⟨-, rfl⟩ | ⟨-, token, rest, more, -, hmore, rfl⟩ := splitSudoCommandPrefixTokens_succ.mp h
    · simp
    · have := splitSudoCommandPrefixTokens_length hmore
      simp only [List.length_cons]
      omega

theorem isWrapper_nil : isWrapper (basename []) = false := by decide

/-- The token the program reads as the delegated command is that command. -/
theorem delegatedCommandToken_ok {sudoCmd token : Str} :
    (delegatedCommandTokenFromSudoCommand sudoCmd = .ok token ∧ token ≠ []) ↔ Delegated sudoCmd token := by
  constructor
  · intro ⟨h, hne⟩
    unfold delegatedCommandTokenFromSudoCommand at h
    cases h1 : splitSudoCommandPrefixTokens sudoCmd 1 with
    | none => simp [h1] at h
    | some firstTokens =>
      rw [h1] at h
      dsimp only at h
      split at h
      · next hwrap =>
        cases h2 : splitSudoCommandPrefixTokens sudoCmd 2 with
        | none => simp [h2] at h
        | some tokens =>
          have hlen := splitSudoCommandPrefixTokens_length h2
          match tokens, h2, hlen with
          | [], h2, _ => simp [h2] at h
          | [_], h2, _ => simp [h2] at h
          | [wrapper, second], h2, _ =>
            obtain rfl : second = token := by simpa [h2] using h
            have hfirst := splitSudoCommandPrefixTokens_first h2
            rw [h1, Option.some.injEq] at hfirst
            subst hfirst
            exact .wrapped h2 hne (Bool.and_eq_true_iff.mp hwrap).1
          | _ :: _ :: _ :: _, _, hlen => simp at hlen
      · next hwrap =>
        have hlen := splitSudoCommandPrefixTokens_length h1
        match firstTokens, h1, hlen with
        | [], _, _ => exact absurd (by simpa using h.symm) hne
        | [first], h1, _ =>
          obtain rfl : first = token := by simpa using h
          exact .direct h1 hne (by simpa [hne] using hwrap)
        | _ :: _ :: _, _, hlen => simp at hlen
  · intro h
    unfold delegatedCommandTokenFromSudoCommand
    cases h with
    | direct h1 hne hwrap => simp [h1, hwrap, hne]
    | @wrapped wrapper _ h2 hne hwrap =>
      have hwne : wrapper ≠ [] := by
        intro h
        rw [h, isWrapper_nil] at hwrap
        cases hwrap
      simp [splitSudoCommandPrefixTokens_first h2, h2, hwrap, hwne, hne]

/-! ## The arguments -/

/-- The token and the name of the tool the arguments name, and the tool's arguments. -/
def argvTool (argv0 : Str) (argvRest : List Str) : Str × Str × List Str :=
  let exeName := (Path.fileName argv0).getD []
  if isWrapper exeName then
    match argvRest with
    | [] => ([], [], [])
    | tool :: args => (tool, basename tool, args)
  else (argv0, exeName, argvRest)

def missingDelegatedCommandMsg : Str := "Spoofing attempt detected: SUDO_COMMAND is missing delegated command token"

def invalidPrefixMsg : Str := "Spoofing attempt detected: invalid SUDO_COMMAND command prefix"

def commandMismatchMsg (expected sudoTool : Str) : Str :=
  "Spoofing attempt detected: command '" ++ expected ++ "' does not match SUDO_COMMAND '" ++ sudoTool ++ "'"

def parseInvocationInternal (rawArgv : List Str) (getEnv : Str → Option Str) : Except Error (Str × List Str) :=
  match rawArgv with
  | [] => .ok ([], [])
  | argv0 :: argvRest =>
    let (argvToolToken, argvToolName, args) := argvTool argv0 argvRest
    match getEnv "SUDO_COMMAND" with
    | none => .ok (argvToolName, args)
    | some sudoCmd =>
      match delegatedCommandTokenFromSudoCommand sudoCmd with
      | .error .invalidPrefix => .error (.spoofing invalidPrefixMsg)
      | .error .missingDelegatedCommand => .error (.spoofing missingDelegatedCommandMsg)
      | .ok sudoToolToken =>
        if sudoToolToken = [] then .error (.spoofing missingDelegatedCommandMsg)
        else if basename sudoToolToken ≠ basename argvToolToken then
          .error (.spoofing (commandMismatchMsg (basename argvToolToken) (basename sudoToolToken)))
        else .ok (basename sudoToolToken, args)

/-- Where sudo says what it ran: the command must have the name the arguments have. -/
theorem parseInvocationInternal_ok {argv0 sudoCmd name : Str} {argvRest args : List Str} {getEnv : Str → Option Str}
    (henv : getEnv "SUDO_COMMAND" = some sudoCmd) :
    parseInvocationInternal (argv0 :: argvRest) getEnv = .ok (name, args) ↔
      ∃ token, delegatedCommandTokenFromSudoCommand sudoCmd = .ok token ∧ token ≠ [] ∧
        basename token = basename (argvTool argv0 argvRest).1 ∧ basename token = name ∧
        (argvTool argv0 argvRest).2.2 = args := by
  unfold parseInvocationInternal
  dsimp only
  rw [henv]
  dsimp only
  cases htok : delegatedCommandTokenFromSudoCommand sudoCmd with
  | error e => cases e <;> simp
  | ok token =>
    simp only [Except.ok.injEq, exists_eq_left']
    by_cases hnil : token = []
    · simp [hnil]
    by_cases hname : basename token = basename (argvTool argv0 argvRest).1
    · simp [hnil, hname]
    · simp [hnil, hname]

/-! ## The process -/

/-- What the kernel hands the process: its arguments and environment, and
whether `/proc/self/cmdline` can be read. -/
structure Process where
  argv : List Bytes
  env : Str → Option Bytes
  cmdlineError : Option Errno
  argv_noNul : ∀ a ∈ argv, 0 ∉ a

namespace Process

/-- `std::env::var(v).ok()`: a variable that is no text counts as unset. -/
def envVar (p : Process) (v : Str) : Option Str := (p.env v).bind Utf8.decode?

/-- `std::env::args().collect()`: it panics on an argument that is no text. -/
def args (p : Process) : Option (List Str) := p.argv.mapM Utf8.decode?

/-- `std::fs::read("/proc/self/cmdline")`: each argument and a NUL. -/
def cmdline (p : Process) : Except Errno Bytes :=
  match p.cmdlineError with
  | some e => .error e
  | none => .ok (p.argv.flatMap (· ++ [0]))

end Process

/-- The tokens of the command line, each of which must be text. -/
def decodeChunks : List Bytes → Except Error (List Str)
  | [] => .ok []
  | chunk :: chunks =>
    match Utf8.decode? chunk with
    | none => .error (.validation "Cannot parse /proc/self/cmdline: non-UTF8 argv token")
    | some token => (decodeChunks chunks).map (token :: ·)

def parseProcSelfCmdlineBytes (bytes : Bytes) : Except Error (List Str) :=
  let chunks := bytes.splitOn 0
  let chunks := if chunks.getLast? = some [] then chunks.dropLast else chunks
  if chunks = [] then .error (.validation "Cannot parse /proc/self/cmdline: missing argv tokens")
  else decodeChunks chunks

def readProcSelfCmdline (p : Process) : Except Error (List Str) :=
  match p.cmdline with
  | .error e => .error (.ioContext "Cannot read /proc/self/cmdline" e)
  | .ok bytes => parseProcSelfCmdlineBytes bytes

/-- `parse_invocation_current_process`; `none` is a panic. -/
def parseInvocationCurrentProcess (p : Process) : Option (Except Error (Str × List Str)) := do
  let rawArgv ← match readProcSelfCmdline p with
    | .ok argv => some argv
    | .error _ => p.args
  some (parseInvocationInternal rawArgv p.envVar)

/-! ## A command that is no text -/

/-- Whatever tool these arguments are read as, it is the command sudo says it ran. -/
def BoundToCommand (p : Process) (rawArgv : List Str) : Prop :=
  ∀ tool args, parseInvocationInternal rawArgv p.envVar = .ok (tool, args) →
    ∃ octets sudoCmd token, p.env "SUDO_COMMAND" = some octets ∧ Utf8.decode? octets = some sudoCmd ∧
      Delegated sudoCmd token ∧ basename token = tool

theorem parseInvocationInternal_nil {getEnv : Str → Option Str} : parseInvocationInternal [] getEnv = .ok ([], []) := rfl

theorem parseInvocationInternal_unset {argv0 : Str} {argvRest : List Str} {getEnv : Str → Option Str}
    (henv : getEnv "SUDO_COMMAND" = none) :
    parseInvocationInternal (argv0 :: argvRest) getEnv = .ok (argvTool argv0 argvRest).2 := by
  unfold parseInvocationInternal
  simp only [henv]

theorem basename_ne_nil {token : Str} (h : token ≠ []) : basename token ≠ [] := by
  unfold basename
  cases hname : Path.fileName token with
  | none => exact h
  | some name => exact (Path.isName_of_fileName hname).ne_nil

theorem Delegated.ne_nil {sudoCmd token : Str} (h : Delegated sudoCmd token) : token ≠ [] := by
  cases h with
  | direct _ h _ => exact h
  | wrapped _ h _ => exact h

/-- **An invocation is bound to what sudo ran exactly when there are arguments
and `SUDO_COMMAND` is text**: otherwise the variable counts as unset. -/
theorem boundToCommand_iff {p : Process} {rawArgv : List Str} {octets : Bytes}
    (henv : p.env "SUDO_COMMAND" = some octets) :
    BoundToCommand p rawArgv ↔ rawArgv ≠ [] ∧ ∃ sudoCmd, Utf8.decode? octets = some sudoCmd := by
  cases rawArgv with
  | nil =>
    simp only [ne_eq, not_true_eq_false, false_and, iff_false]
    intro h
    obtain ⟨_, _, token, -, -, hdel, hname⟩ := h [] [] parseInvocationInternal_nil
    exact basename_ne_nil hdel.ne_nil hname
  | cons argv0 argvRest =>
    have hvar : p.envVar "SUDO_COMMAND" = Utf8.decode? octets := by simp only [Process.envVar, henv, Option.bind_some]
    simp only [ne_eq, reduceCtorEq, not_false_eq_true, true_and]
    constructor
    · intro h
      cases hdec : Utf8.decode? octets with
      | some sudoCmd => exact ⟨sudoCmd, rfl⟩
      | none =>
        -- the variable is there, and is read as if it were not
        obtain ⟨octets', sudoCmd, _, henv', hdec', -⟩ :=
          h _ _ (parseInvocationInternal_unset (hvar.trans hdec))
        obtain rfl : octets = octets' := Option.some.inj (henv.symm.trans henv')
        rw [hdec] at hdec'
        cases hdec'
    · intro ⟨sudoCmd, hdec⟩ tool args h
      obtain ⟨token, htoken, hne, -, hname, -⟩ := (parseInvocationInternal_ok (hvar.trans hdec)).mp h
      exact ⟨octets, sudoCmd, token, henv, hdec, delegatedCommandToken_ok.mp ⟨htoken, hne⟩, hname⟩

/-- A process started as `apt`, with the octets sudo would write of its command. -/
def aptProcess (sudoCommand : Bytes) : Process where
  argv := [Utf8.encode "/usr/bin/apt"]
  env v := if v = ("SUDO_COMMAND" : Str) then some sudoCommand else none
  cmdlineError := none
  argv_noNul := by decide

theorem boundToCommand_apt : BoundToCommand (aptProcess (Utf8.encode "/usr/bin/apt")) ["/usr/bin/apt"] :=
  (boundToCommand_iff rfl).mpr ⟨by decide, _, Utf8.decode?_encode⟩

theorem not_boundToCommand_undecoded : ¬BoundToCommand (aptProcess [0xFF]) ["/usr/bin/apt"] := by
  intro h
  obtain ⟨_, _, _, henv, hdec, -⟩ := h "apt" [] (by decide)
  cases henv
  have hnone : Utf8.decode? [0xFF] = none := by decide
  rw [hnone] at hdec
  cases hdec

/-! ## The command line and the arguments are the same -/

theorem splitOn_cmdline : ∀ {argv : List Bytes}, (∀ a ∈ argv, 0 ∉ a) →
    (argv.flatMap (· ++ [0])).splitOn 0 = argv ++ [[]]
  | [], _ => rfl
  | a :: argv, h => by
    rw [List.flatMap_cons, List.append_assoc, List.singleton_append, List.splitOn_append_cons_self,
      List.splitOn_eq_singleton (h a List.mem_cons_self),
      splitOn_cmdline fun b hb => h b (List.mem_cons_of_mem a hb)]
    rfl

theorem decodeChunks_ok : ∀ {chunks : List Bytes} {argv : List Str},
    decodeChunks chunks = .ok argv ↔ chunks.mapM Utf8.decode? = some argv
  | [], argv => by simp [decodeChunks]
  | chunk :: chunks, argv => by
    unfold decodeChunks
    cases hc : Utf8.decode? chunk with
    | none => simp [List.mapM_cons, hc]
    | some token =>
      simp only [map_ok, List.mapM_cons, hc, decodeChunks_ok, Option.bind_eq_bind, Option.bind_some,
        Option.bind_eq_some_iff, Option.pure_def, Option.some.injEq]

/-- What the kernel writes of the arguments reads back as them. -/
theorem parseProcSelfCmdlineBytes_argv {argv : List Bytes} {args : List Str} (h : ∀ a ∈ argv, 0 ∉ a) :
    parseProcSelfCmdlineBytes (argv.flatMap (· ++ [0])) = .ok args ↔
      argv ≠ [] ∧ argv.mapM Utf8.decode? = some args := by
  unfold parseProcSelfCmdlineBytes
  simp only [splitOn_cmdline h, List.getLast?_concat, ite_true, List.dropLast_concat]
  by_cases hne : argv = []
  · simp [hne]
  · rw [if_neg hne, decodeChunks_ok]
    exact ⟨fun h => ⟨hne, h⟩, fun h => h.2⟩

theorem intercalate_concat_nil {α : Type} {x : α} : ∀ {parts : List (List α)}, parts ≠ [] →
    List.intercalate [x] (parts ++ [[]]) = List.intercalate [x] parts ++ [x]
  | [], h => absurd rfl h
  | [part], _ => by simp [List.intercalate_cons_cons]
  | part :: next :: parts, _ => by
    have ih := intercalate_concat_nil (x := x) (List.cons_ne_nil next parts)
    simp only [List.cons_append, List.intercalate_cons_cons, List.append_assoc] at ih ⊢
    rw [ih]

theorem mapM_decode? : ∀ {chunks : List Bytes} {argv : List Str},
    chunks.mapM Utf8.decode? = some argv ↔ argv.map Utf8.encode = chunks
  | [], argv => by simp [eq_comm]
  | chunk :: chunks, argv => by
    simp only [List.mapM_cons, Option.bind_eq_bind, Option.bind_eq_some_iff, Utf8.decode?_eq_some, mapM_decode?,
      Option.pure_def, Option.some.injEq, List.map_eq_cons_iff]
    constructor
    · intro ⟨token, htoken, more, hmore, hargv⟩
      exact ⟨token, more, hargv.symm, htoken, hmore⟩
    · intro ⟨token, more, hargv, htoken, hmore⟩
      exact ⟨token, htoken, more, hmore, hargv.symm⟩

/-- **The command line is read as the arguments it was written from**, empty
ones too, and what is read, joined at NULs, is the octets up to one NUL at their end. -/
theorem parseProcSelfCmdlineBytes_spec :
    (∀ argv : List Str, argv ≠ [] → (∀ a ∈ argv, Char.ofNat 0 ∉ a) →
      parseProcSelfCmdlineBytes (argv.flatMap fun a => Utf8.encode a ++ [0]) = .ok argv) ∧
    (∀ bytes argv, parseProcSelfCmdlineBytes bytes = .ok argv →
      argv ≠ [] ∧ List.intercalate [0] (argv.map Utf8.encode) =
        if bytes.getLast? = some 0 then bytes.dropLast else bytes) := by
  constructor
  · intro argv hne hnul
    have hchunks : ∀ a ∈ argv.map Utf8.encode, 0 ∉ a := by
      simp only [List.forall_mem_map]
      exact fun a ha h => hnul a ha ((Utf8.mem_encode_ascii (by decide)).mp h)
    have hflat : (argv.flatMap fun a => Utf8.encode a ++ [0]) = (argv.map Utf8.encode).flatMap (· ++ [0]) := by
      rw [List.flatMap_map]
    rw [hflat]
    exact (parseProcSelfCmdlineBytes_argv hchunks).mpr ⟨by simpa using hne, mapM_decode?.mpr rfl⟩
  · intro bytes argv h
    have hjoin : List.intercalate [0] (bytes.splitOn 0) = bytes := List.intercalate_splitOn 0
    unfold parseProcSelfCmdlineBytes at h
    dsimp only at h
    by_cases hlast : (bytes.splitOn 0).getLast? = some []
    · -- the octets end in a NUL, or there are none
      obtain ⟨chunks, hsplit⟩ := List.getLast?_eq_some_iff.mp hlast
      rw [if_pos hlast, hsplit, List.dropLast_concat] at h
      obtain ⟨hne, hdec⟩ : chunks ≠ [] ∧ decodeChunks chunks = .ok argv := by
        by_cases hne : chunks = []
        · simp [hne] at h
        · exact ⟨hne, by simpa [hne] using h⟩
      have hargv := mapM_decode?.mp (decodeChunks_ok.mp hdec)
      rw [hsplit, intercalate_concat_nil hne] at hjoin
      refine ⟨?_, ?_⟩
      · rintro rfl
        exact hne hargv.symm
      · rw [← hjoin, hargv, List.getLast?_concat, if_pos rfl, List.dropLast_concat]
    · rw [if_neg hlast, if_neg (List.splitOn_ne_nil 0 bytes)] at h
      have hargv := mapM_decode?.mp (decodeChunks_ok.mp h)
      refine ⟨?_, ?_⟩
      · rintro rfl
        exact List.splitOn_ne_nil 0 bytes hargv.symm
      · rw [hargv, hjoin, if_neg]
        intro hnul
        obtain ⟨front, rfl⟩ := List.getLast?_eq_some_iff.mp hnul
        exact hlast (by rw [List.splitOn_append_cons_self]; simp)

/-- **The invocation is parsed from the arguments**, whether or not the command
line can be read, and reading them panics when one of them is no text. -/
theorem parseInvocationCurrentProcess_eq {p : Process} :
    parseInvocationCurrentProcess p = p.args.map fun args => parseInvocationInternal args p.envVar := by
  have hread : ∀ argv, readProcSelfCmdline p = .ok argv → p.args = some argv := by
    intro argv h
    unfold readProcSelfCmdline Process.cmdline at h
    cases he : p.cmdlineError with
    | some e =>
      rw [he] at h
      cases h
    | none =>
      rw [he] at h
      exact ((parseProcSelfCmdlineBytes_argv p.argv_noNul).mp h).2
  unfold parseInvocationCurrentProcess
  cases h : readProcSelfCmdline p with
  | ok argv => rw [hread argv h]; rfl
  | error e => cases p.args <;> rfl

end SecureSudoers
