/-
The processes a delegated command leaves behind (`supervisor.rs`): the
supervisor finds its children in `/proc`, and sends them signals until there
are none.

`listDirectChildren` is what the code does with the names and the files of
`/proc`; a `Snapshot` says what the kernel puts there. The name of a process is
its own choice. No parenthesis, blank or newline in it misleads
`parsePpidFromStat` (`parsePpidFromStat_framed`), but octets that are no UTF-8
hide the process: its file does not read as a string and is skipped.
-/
import Mathlib.Algebra.Group.Int.Defs
import Mathlib.Algebra.Group.Nat.Defs
import Mathlib.Data.List.Nodup
import SecureSudoers.Invocation
import SecureSudoers.Supervisor
import SecureSudoers.Lib.Decimal

namespace SecureSudoers

/-! ## The standard library -/

namespace Str

/-- `str::rfind` of a character. -/
def rfind (d : Char) : Str → Option Nat
  | [] => none
  | c :: s =>
    match rfind d s with
    | some n => some (c.utf8Size + n)
    | none => if c = d then some 0 else none

/-- `str::trim_start`. -/
def trimStart (s : Str) : Str := s.dropWhile isWhitespace

/-- `str::split_whitespace`. -/
def splitWhitespace (s : Str) : List Str := (s.splitOnP isWhitespace).filter (· ≠ [])

end Str

/-- `str::parse::<libc::pid_t>`. -/
def parsePid (s : Str) : Option Int := Decimal.parseInt (-2 ^ 31) (2 ^ 31) s

/-- Within `libc::pid_t`. -/
def IsPid (n : Int) : Prop := -2 ^ 31 ≤ n ∧ n < 2 ^ 31

instance {n : Int} : Decidable (IsPid n) := inferInstanceAs (Decidable (_ ∧ _))

/-! ## Reading `/proc` -/

/-- `/proc`: the names in it, and its files by their path. -/
structure ProcFs where
  readDir : Except Errno (List (Except Errno (List UInt8)))
  read : Str → Except Errno (List UInt8)

/-- `std::fs::read_to_string`, where it succeeds. -/
def ProcFs.readToString (fs : ProcFs) (path : Str) : Option Str := (fs.read path).toOption.bind Utf8.decode?

def statPath (pid : Int) : Str := "/proc/" ++ intDigits pid ++ "/stat"

/-- `parse_ppid_from_stat`. -/
def parsePpidFromStat (stat : Str) : Option Int := do
  let opening ← Str.find '(' stat
  let closing ← Str.rfind ')' stat
  if closing ≤ opening then none
  else
    let afterComm ← Str.sliceFrom stat (closing + 1)
    match Str.splitWhitespace (Str.trimStart afterComm) with
    | _state :: ppid :: _ => parsePid ppid
    | _ => none

/-- The child of `ppid` an entry names; what cannot be read is none. -/
def childEntry (fs : ProcFs) (ppid : Int) : Except Errno (List UInt8) → Option Int
  | .error _ => none
  | .ok fileName => do
    let pid ← (Utf8.decode? fileName).bind parsePid
    let stat ← fs.readToString (statPath pid)
    if parsePpidFromStat stat = some ppid then some pid else none

/-- `list_direct_children`. -/
def listDirectChildren (fs : ProcFs) (ppid : Int) : Except Error (List Int) :=
  match fs.readDir with
  | .error e => .error (.ioContext "read_dir('/proc') failed" e)
  | .ok entries => .ok (entries.filterMap (childEntry fs ppid))

/-! ## Terminating -/

def SIGKILL : Signal := .other 9

def ESRCH : Errno := .other 3

/-- The calls around a listing, on a state `W` of the system. -/
structure ProcSystem (W : Type) where
  procFs : W → ProcFs
  /-- `reap_all_children_nonblocking`. -/
  reap : W → W
  kill : Int → Signal → W → Except Errno Unit × W
  sleep : W → W

namespace ProcSystem

variable {W : Type} (sys : ProcSystem W)

/-- `send_signal_to_pid`. -/
def sendSignalToPid (pid : Int) (signal : Signal) (w : W) : Except Error Unit × W :=
  match sys.kill pid signal w with
  | (.ok (), w) => (.ok (), w)
  | (.error e, w) =>
    if e = ESRCH then (.ok (), w)
    else (.error (.execution ("kill(" ++ intDigits pid ++ ", " ++ Nat.toDigits 10 signal.number ++ ") failed: " ++
      e.display)), w)

def sendSignals (signal : Signal) : List Int → W → Except Error Unit × W
  | [], w => (.ok (), w)
  | pid :: children, w =>
    match sys.sendSignalToPid pid signal w with
    | (.error e, w) => (.error e, w)
    | (.ok (), w) => sendSignals signal children w

/-- The rounds with one signal: whether no child is left. -/
def rounds (supervisorPid : Int) (signal : Signal) : Nat → W → Except Error Bool × W
  | 0, w => (.ok false, w)
  | n + 1, w =>
    let w := sys.reap w
    match listDirectChildren (sys.procFs w) supervisorPid with
    | .error e => (.error e, w)
    | .ok children =>
      if children = [] then (.ok true, w)
      else match sys.sendSignals signal children w with
        | (.error e, w) => (.error e, w)
        | (.ok (), w) => rounds supervisorPid signal n (sys.sleep w)

/-- The debug format of a list of pids. -/
def debugPids (pids : List Int) : Str :=
  "[" ++ List.intercalate (", ".toList) (pids.map intDigits) ++ "]"

/-- `terminate_adopted_descendants`. -/
def terminateAdoptedDescendants (supervisorPid : Int) (w : W) : Except Error Unit × W :=
  match sys.rounds supervisorPid .SIGTERM 10 w with
  | (.error e, w) => (.error e, w)
  | (.ok true, w) => (.ok (), w)
  | (.ok false, w) =>
    match sys.rounds supervisorPid SIGKILL 10 w with
    | (.error e, w) => (.error e, w)
    | (.ok true, w) => (.ok (), w)
    | (.ok false, w) =>
      let w := sys.reap w
      match listDirectChildren (sys.procFs w) supervisorPid with
      | .error e => (.error e, w)
      | .ok remaining =>
        if remaining = [] then (.ok (), w)
        else (.error (.system ("failed to terminate descendant processes: " ++ debugPids remaining)), w)

end ProcSystem

/-! ## What the kernel puts there -/

/-- A process, as its `stat` shows it; `fields` are the numbers after its parent. -/
structure Proc where
  pid : Nat
  ppid : Nat
  comm : List UInt8
  state : Char
  fields : List Int
  pid_lt : pid < 2 ^ 31
  ppid_lt : ppid < 2 ^ 31
  comm_length : comm.length ≤ 15
  comm_no_nul : 0 ∉ comm
  state_letter : state.isAlpha = true

namespace Proc

/-- What comes before the name. -/
def statHead (p : Proc) : Str := Nat.toDigits 10 p.pid ++ " (".toList

/-- What comes after the parenthesis that closes the name. -/
def statTail (p : Proc) : Str :=
  ' ' :: p.state :: ' ' :: (Nat.toDigits 10 p.ppid ++ p.fields.flatMap (fun n => ' ' :: intDigits n) ++ ['\n'])

/-- `/proc/{pid}/stat`. -/
def stat (p : Proc) : List UInt8 := Utf8.encode p.statHead ++ (p.comm ++ Utf8.encode (')' :: p.statTail))

/-- The name is UTF-8. -/
def IsText (p : Proc) : Prop := (Utf8.decode? p.comm).isSome = true

instance (p : Proc) : Decidable p.IsText := inferInstanceAs (Decidable (_ = true))

end Proc

/-- An entry of `/proc`: a process, or a name that is no number. -/
inductive ProcEntry where
  | process (p : Proc)
  | other (name : List UInt8) (notPid : (Utf8.decode? name).bind parsePid = none)

namespace ProcEntry

def process? : ProcEntry → Option Proc
  | .process p => some p
  | .other _ _ => none

def name : ProcEntry → List UInt8
  | .process p => Utf8.encode (Nat.toDigits 10 p.pid)
  | .other name _ => name

end ProcEntry

/-- `/proc` at one moment. -/
structure Snapshot where
  entries : List ProcEntry
  pids_nodup : ((entries.filterMap ProcEntry.process?).map Proc.pid).Nodup

namespace Snapshot

def processes (snap : Snapshot) : List Proc := snap.entries.filterMap ProcEntry.process?

def procFs (snap : Snapshot) : ProcFs where
  readDir := .ok (snap.entries.map fun entry => .ok entry.name)
  read path :=
    match snap.processes.find? fun p => statPath p.pid = path with
    | some p => .ok p.stat
    | none => .error .ENOENT

/-- The pids whose parent is `ppid`. -/
def children (snap : Snapshot) (ppid : Int) : List Int :=
  (snap.processes.filter fun p => (p.ppid : Int) = ppid).map fun p => (p.pid : Int)

end Snapshot

/-! ## The parent in a `stat` -/

theorem rfind_none {d : Char} : ∀ {s : Str}, d ∉ s → Str.rfind d s = none
  | [], _ => rfl
  | c :: s, h => by
    rw [List.mem_cons, not_or] at h
    simp [Str.rfind, rfind_none h.2, Ne.symm h.1]

/-- The last `d` of a text that has one. -/
theorem rfind_mid {d : Char} {b : Str} (h : d ∉ b) : ∀ {a : Str}, Str.rfind d (a ++ d :: b) = some (Str.len a)
  | [] => by simp [Str.rfind, rfind_none h, Str.len]
  | c :: a => by
    rw [List.cons_append, Str.rfind, rfind_mid h, len_cons]

theorem splitWhitespace_space {c : Char} {s : Str} (h : isWhitespace c = true) :
    Str.splitWhitespace (c :: s) = Str.splitWhitespace s := by
  have hsplit : (c :: s).splitOnP isWhitespace = [] :: s.splitOnP isWhitespace := List.splitOnP_append_cons [] s h
  rw [Str.splitWhitespace, hsplit, List.filter_cons_of_neg (by simp), Str.splitWhitespace]

theorem splitWhitespace_ending {s : Str} (h : ∀ d ∈ s, isWhitespace d = true) : Str.splitWhitespace s = [] := by
  induction s with
  | nil => rfl
  | cons c s ih =>
    rw [splitWhitespace_space (h c (List.mem_cons_self ..))]
    exact ih fun d hd => h d (List.mem_cons_of_mem _ hd)

/-- Characters between white space. -/
structure IsWord (w : Str) : Prop where
  ne_nil : w ≠ []
  word : ∀ d ∈ w, isWhitespace d = false

theorem splitWhitespace_word {w t : Str} (hw : IsWord w) (ht : Breaks t) :
    Str.splitWhitespace (w ++ t) = w :: Str.splitWhitespace t := by
  obtain rfl | ⟨c, rest, rfl, hc⟩ := ht.cases
  · rw [List.append_nil, Str.splitWhitespace, List.splitOnP_eq_singleton hw.word,
      List.filter_cons_of_pos (by simpa using hw.ne_nil)]
    rfl
  · have hsplit : (w ++ c :: rest).splitOnP isWhitespace = w :: rest.splitOnP isWhitespace := by
      rw [List.splitOnP_append_cons _ _ hc, List.splitOnP_eq_singleton hw.word, List.singleton_append]
    rw [splitWhitespace_space hc, Str.splitWhitespace, hsplit,
      List.filter_cons_of_pos (by simpa using hw.ne_nil), Str.splitWhitespace]

/-- Words, each after a blank, are read back. -/
theorem splitWhitespace_words {words : List Str} {ending : Str} (hending : ∀ d ∈ ending, isWhitespace d = true)
    (h : ∀ w ∈ words, IsWord w) : Str.splitWhitespace (words.flatMap (fun w => ' ' :: w) ++ ending) = words := by
  induction words with
  | nil => exact splitWhitespace_ending hending
  | cons w words ih =>
    have hbreaks : Breaks (words.flatMap (fun w => ' ' :: w) ++ ending) := by
      cases words with
      | nil => exact fun d hd => hending d (List.mem_of_mem_head? hd)
      | cons => exact fun d hd => by cases hd; decide
    rw [List.flatMap_cons, List.append_assoc, List.cons_append, splitWhitespace_space (by decide),
      splitWhitespace_word (h w (List.mem_cons_self ..)) hbreaks, ih fun v hv => h v (List.mem_cons_of_mem _ hv)]

/-- Trimming changes no word. -/
theorem splitWhitespace_trimStart {s : Str} : Str.splitWhitespace (Str.trimStart s) = Str.splitWhitespace s := by
  induction s with
  | nil => rfl
  | cons c s ih =>
    by_cases hc : isWhitespace c = true
    · rw [splitWhitespace_space hc, ← ih, Str.trimStart, List.dropWhile_cons_of_pos hc, Str.trimStart]
    · rw [Str.trimStart, List.dropWhile_cons_of_neg hc]

/-- **The first `(` and the last `)` frame the name**, whatever is between them. -/
theorem parsePpidFromStat_framed {head comm tail : Str} (hhead : '(' ∉ head) (htail : ')' ∉ tail) :
    parsePpidFromStat (head ++ '(' :: (comm ++ ')' :: tail)) = (Str.splitWhitespace tail)[1]?.bind parsePid := by
  have hopen : Str.find '(' (head ++ '(' :: (comm ++ ')' :: tail)) = some (Str.len head) := by
    rw [find_eq, splitOnce_mid hhead]
    rfl
  have hcut : head ++ '(' :: (comm ++ ')' :: tail) = (head ++ '(' :: comm) ++ ')' :: tail := by simp
  have hclose : Str.rfind ')' (head ++ '(' :: (comm ++ ')' :: tail)) = some (Str.len (head ++ '(' :: comm)) := by
    rw [hcut, rfind_mid htail]
  have hlt : ¬Str.len (head ++ '(' :: comm) ≤ Str.len head := by
    have := '('.utf8Size_pos
    rw [len_append, len_cons]
    omega
  have hslice : Str.sliceFrom (head ++ '(' :: (comm ++ ')' :: tail)) (Str.len (head ++ '(' :: comm) + 1) =
      some tail := by
    have hlen : Str.len (head ++ '(' :: comm) + 1 = Str.len ((head ++ '(' :: comm) ++ [')']) :=
      (@len_append (head ++ '(' :: comm) [')']).symm
    rw [hcut, hlen, List.append_cons, sliceFrom_len]
  simp only [parsePpidFromStat, hopen, hclose, bind, Option.bind, if_neg hlt, hslice, splitWhitespace_trimStart]
  rcases Str.splitWhitespace tail with _ | ⟨state, _ | ⟨ppid, rest⟩⟩ <;> rfl

theorem isDigit_bounds {c : Char} (h : c.isDigit = true) : 48 ≤ c.toNat ∧ c.toNat ≤ 57 := by
  simp only [Char.isDigit, ge_iff_le, Bool.and_eq_true, decide_eq_true_eq, UInt32.le_iff_toNat_le] at h
  have hc : c.toNat = c.val.toNat := rfl
  have h0 : '0'.val.toNat = 48 := rfl
  have h9 : '9'.val.toNat = 57 := rfl
  omega

theorem isAlpha_bounds {c : Char} (h : c.isAlpha = true) : 65 ≤ c.toNat ∧ c.toNat ≤ 122 := by
  delta Char.isAlpha Char.isUpper Char.isLower at h
  simp only [ge_iff_le, Bool.or_eq_true, Bool.and_eq_true, decide_eq_true_eq, UInt32.le_iff_toNat_le] at h
  have hc : c.toNat = c.val.toNat := rfl
  have hA : 'A'.val.toNat = 65 := rfl
  have hZ : 'Z'.val.toNat = 90 := rfl
  have ha : 'a'.val.toNat = 97 := rfl
  have hz : 'z'.val.toNat = 122 := rfl
  omega

theorem graphic_word {w : Str} (hne : w ≠ []) (h : ∀ c ∈ w, 33 ≤ c.toNat ∧ c.toNat < 127) : IsWord w :=
  ⟨hne, fun c hc => graphic_not_whitespace (h c hc).1 (h c hc).2⟩

theorem digits_graphic {n : Nat} : ∀ c ∈ Nat.toDigits 10 n, 33 ≤ c.toNat ∧ c.toNat < 127 := by
  intro c hc
  have := isDigit_bounds (Decimal.isDigit_of_mem hc)
  omega

theorem intDigits_word {n : Int} : IsWord (intDigits n) := by
  unfold intDigits
  split
  · refine graphic_word (List.cons_ne_nil _ _) ?_
    rw [List.forall_mem_cons]
    exact ⟨by decide, digits_graphic⟩
  · exact graphic_word Nat.toDigits_ne_nil digits_graphic

theorem not_mem_intDigits {n : Int} {c : Char} (hminus : c ≠ '-') (h : c.isDigit = false) : c ∉ intDigits n := by
  unfold intDigits
  split
  · simp [hminus, @Decimal.not_mem_digits n.natAbs c h]
  · exact Decimal.not_mem_digits h

theorem intDigits_natCast {n : Nat} : intDigits n = Nat.toDigits 10 n := by
  rw [intDigits, if_neg (by omega)]
  rfl

theorem parsePid_intDigits {n : Int} : parsePid (intDigits n) = (some n).filter fun n => IsPid n := by
  unfold parsePid intDigits
  split
  · rw [Decimal.parseInt_minus, show -(n.natAbs : Int) = n by omega]
    rfl
  · rw [Decimal.parseInt_toDigits, show (n.natAbs : Int) = n by omega]
    rfl

theorem splitWhitespace_fields {fields : List Int} :
    Str.splitWhitespace (fields.flatMap fun n => ' ' :: intDigits n) = fields.map intDigits := by
  have hwords := @splitWhitespace_words (fields.map intDigits) [] (by simp) (by simp [intDigits_word])
  rwa [List.append_nil, List.flatMap_map] at hwords

theorem splitWhitespace_state {state : Char} {fields : List Int} {ending : Str} (hstate : IsWord [state])
    (hending : ∀ d ∈ ending, isWhitespace d = true) :
    Str.splitWhitespace (' ' :: state :: (fields.flatMap (fun n => ' ' :: intDigits n) ++ ending)) =
      [state] :: fields.map intDigits := by
  have hwords := @splitWhitespace_words ([state] :: fields.map intDigits) ending hending
    (by simp [hstate, intDigits_word])
  rwa [List.flatMap_cons, List.flatMap_map] at hwords

/-- A line with the name in it: a process, its name, its state, its parent and the rest. -/
def statLine (pid : Int) (comm : Str) (state : Char) (ppid : Int) (fields : List Int) : Str :=
  intDigits pid ++ " (" ++ comm ++ ") " ++ [state] ++ (ppid :: fields).flatMap fun n => ' ' :: intDigits n

theorem statLine_eq {pid ppid : Int} {comm : Str} {state : Char} {fields : List Int} :
    statLine pid comm state ppid fields = (intDigits pid ++ [' ']) ++
      '(' :: (comm ++ ')' :: ' ' :: state :: (ppid :: fields).flatMap fun n => ' ' :: intDigits n) := by
  simp [statLine]

/-- The number after the parent. -/
theorem parsePid_next {ppid : Int} {fields : List Int} :
    ((ppid :: fields).map intDigits)[1]?.bind parsePid = fields.head?.filter fun n => IsPid n := by
  cases fields with
  | nil => rfl
  | cons n fields => exact parsePid_intDigits

/-- **The parent is found whatever the name is**, where the state is a word of
its own; where it is not, the next number is taken for the parent. -/
theorem parsePpidFromStat_statLine {pid ppid : Int} {comm : Str} {state : Char} {fields : List Int}
    (hppid : IsPid ppid) : parsePpidFromStat (statLine pid comm state ppid fields) =
      if state = ')' ∨ isWhitespace state = true then fields.head?.filter fun n => IsPid n else some ppid := by
  have hhead : '(' ∉ intDigits pid ++ [' '] := by simp [not_mem_intDigits]
  have hclosing : ')' ∉ (ppid :: fields).flatMap fun n => ' ' :: intDigits n := by
    simp [not_mem_intDigits]
  rw [statLine_eq]
  by_cases hparen : state = ')'
  · -- the state is taken for the end of the name
    subst hparen
    have hcut : comm ++ ')' :: ' ' :: ')' :: (ppid :: fields).flatMap (fun n => ' ' :: intDigits n) =
        (comm ++ [')', ' ']) ++ ')' :: (ppid :: fields).flatMap fun n => ' ' :: intDigits n := by simp
    rw [hcut, parsePpidFromStat_framed hhead hclosing, splitWhitespace_fields, parsePid_next, if_pos (.inl rfl)]
  · rw [parsePpidFromStat_framed hhead (by simp [Ne.symm hparen, not_mem_intDigits])]
    by_cases hwhite : isWhitespace state = true
    · -- the state is no word
      rw [splitWhitespace_space (by decide), splitWhitespace_space hwhite, splitWhitespace_fields, parsePid_next,
        if_pos (.inr hwhite)]
    · have hstate : IsWord [state] := ⟨List.cons_ne_nil _ _, by simpa using hwhite⟩
      have hwords := @splitWhitespace_state state (ppid :: fields) [] hstate (by simp)
      rw [List.append_nil] at hwords
      rw [hwords, if_neg (not_or.mpr ⟨hparen, hwhite⟩)]
      simp [parsePid_intDigits, hppid]

/-- A name that imitates what follows it. -/
theorem parsePpidFromStat_imitated :
    parsePpidFromStat (statLine 12345 ") S 1 (" 'S' 678 [100, 100, 0, -1]) = some 678 :=
  (parsePpidFromStat_statLine (by decide)).trans (if_neg (by decide))

/-- A parenthesis for a state hides the parent. -/
theorem state_hides_parent :
    ¬∀ (pid : Int) (comm : Str) (state : Char) (ppid : Int) (fields : List Int), IsPid ppid →
      parsePpidFromStat (statLine pid comm state ppid fields) = some ppid := by
  intro h
  have hfound := h 1 "a" ')' 2 [3] (by decide)
  revert hfound
  decide

namespace Proc

variable {p : Proc}

theorem state_graphic : 33 ≤ p.state.toNat ∧ p.state.toNat < 127 := by
  have := isAlpha_bounds p.state_letter
  omega

theorem statTail_eq : p.statTail = ' ' :: p.state :: (((p.ppid : Int) :: p.fields).flatMap
    (fun n => ' ' :: intDigits n) ++ ['\n']) := by
  simp [statTail, intDigits_natCast]

theorem statTail_closing : ')' ∉ p.statTail := by
  have hstate : ')' ≠ p.state := by
    intro h
    have := isAlpha_bounds (h ▸ p.state_letter)
    simp at this
  rw [statTail_eq]
  simp [hstate, not_mem_intDigits]

/-- The parent is found in what the kernel writes. -/
theorem parsePpidFromStat_stat {comm : Str} :
    parsePpidFromStat (p.statHead ++ (comm ++ ')' :: p.statTail)) = some (p.ppid : Int) := by
  have hhead : p.statHead ++ (comm ++ ')' :: p.statTail) =
      (Nat.toDigits 10 p.pid ++ [' ']) ++ '(' :: (comm ++ ')' :: p.statTail) := by simp [statHead]
  have hstate : IsWord [p.state] := graphic_word (List.cons_ne_nil _ _) (by simpa using p.state_graphic)
  have hpid : IsPid p.ppid := by
    have := p.ppid_lt
    exact ⟨by omega, by omega⟩
  rw [hhead, parsePpidFromStat_framed (by simp [Decimal.not_mem_digits]) statTail_closing, statTail_eq,
    splitWhitespace_state hstate (List.forall_mem_singleton.mpr (by decide))]
  simp [parsePid_intDigits, hpid]

/-- The file is a string where the name is, and then the parent is found. -/
theorem readToString_stat : (Utf8.decode? p.stat).bind parsePpidFromStat =
    if p.IsText then some (p.ppid : Int) else none := by
  rw [stat, Utf8.decode?_framed (by decide)]
  cases hd : Utf8.decode? p.comm with
  | none =>
    rw [if_neg (by simp [IsText, hd])]
    rfl
  | some comm =>
    rw [if_pos (by simp [IsText, hd]), Option.map_some, Option.bind_some, parsePpidFromStat_stat]

end Proc

/-! ## The children of a snapshot -/

theorem intDigits_inj {n m : Nat} (h : intDigits n = intDigits m) : n = m := by
  rw [intDigits_natCast, intDigits_natCast] at h
  have := congrArg Decimal.parse h
  simpa [Decimal.parse_digits] using this

theorem statPath_inj {n m : Nat} : statPath n = statPath m ↔ n = m := by
  constructor
  · intro h
    unfold statPath at h
    rw [List.append_left_inj, List.append_right_inj] at h
    exact intDigits_inj h
  · rintro rfl
    rfl

namespace Snapshot

variable {snap : Snapshot} {ppid : Int}

theorem mem_processes {p : Proc} : p ∈ snap.processes ↔ ProcEntry.process p ∈ snap.entries := by
  unfold processes
  rw [List.mem_filterMap]
  constructor
  · rintro ⟨entry, hentry, h⟩
    cases entry with
    | process q =>
      cases h
      exact hentry
    | other => cases h
  · intro h
    exact ⟨_, h, rfl⟩

/-- The file read for a process is its own. -/
theorem read_statPath {p : Proc} (h : p ∈ snap.processes) : snap.procFs.read (statPath p.pid) = .ok p.stat := by
  unfold procFs
  dsimp only
  cases hf : snap.processes.find? (fun q => statPath q.pid = statPath p.pid) with
  | none =>
    rw [List.find?_eq_none] at hf
    have := hf p h
    simp at this
  | some q =>
    have hpid : q.pid = p.pid := by
      have := List.find?_some hf
      rwa [decide_eq_true_eq, statPath_inj] at this
    have hq : q = p := List.inj_on_of_nodup_map snap.pids_nodup (List.mem_of_find?_eq_some hf) h hpid
    rw [hq]

theorem childEntry_process {p : Proc} (h : p ∈ snap.processes) :
    childEntry snap.procFs ppid (.ok (ProcEntry.process p).name) =
      if (p.ppid : Int) = ppid ∧ p.IsText then some (p.pid : Int) else none := by
  have hname : (Utf8.decode? (ProcEntry.process p).name).bind parsePid = some (p.pid : Int) := by
    have := p.pid_lt
    unfold ProcEntry.name
    rw [Utf8.decode?_encode]
    exact Decimal.parseInt_digits (by omega) (by omega)
  have hread := @Proc.readToString_stat p
  have hstat : snap.procFs.readToString (statPath p.pid) = Utf8.decode? p.stat := by
    rw [ProcFs.readToString, read_statPath h]
    rfl
  unfold childEntry
  dsimp only
  rw [hname]
  simp only [bind, Option.bind_some, hstat]
  cases hd : Utf8.decode? p.stat with
  | none =>
    rw [hd, Option.bind_none] at hread
    have htext : ¬p.IsText := by
      intro ht
      simp [ht] at hread
    simp [htext]
  | some stat =>
    rw [hd, Option.bind_some] at hread
    by_cases ht : p.IsText
    · simp [hread, ht]
    · simp [hread, ht]

/-- **What is listed are the children whose names are text.** -/
theorem listDirectChildren_eq : listDirectChildren snap.procFs ppid =
    .ok ((snap.processes.filter fun p => (p.ppid : Int) = ppid ∧ p.IsText).map fun p => (p.pid : Int)) := by
  have hentries : ∀ {entries : List ProcEntry}, (∀ p, ProcEntry.process p ∈ entries → p ∈ snap.processes) →
      (entries.map fun entry => (.ok entry.name : Except Errno (List UInt8))).filterMap
          (childEntry snap.procFs ppid) =
        ((entries.filterMap ProcEntry.process?).filter fun p => (p.ppid : Int) = ppid ∧ p.IsText).map
          fun p => (p.pid : Int) := by
    intro entries
    induction entries with
    | nil => intro _; rfl
    | cons entry entries ih =>
      intro h
      have hrest := ih fun p hp => h p (List.mem_cons_of_mem _ hp)
      rw [List.map_cons, List.filterMap_cons]
      cases entry with
      | other name hname =>
        have hnone : childEntry snap.procFs ppid (.ok (ProcEntry.other name hname).name) = none := by
          simp [childEntry, ProcEntry.name, hname]
        rw [hnone, List.filterMap_cons_none (f := ProcEntry.process?) rfl]
        exact hrest
      | process p =>
        rw [childEntry_process (h p (List.mem_cons_self ..)), List.filterMap_cons_some (f := ProcEntry.process?) rfl]
        by_cases hp : (p.ppid : Int) = ppid ∧ p.IsText
        · rw [if_pos hp, List.filter_cons_of_pos (by simpa using hp), List.map_cons, ← hrest]
        · rw [if_neg hp, List.filter_cons_of_neg (by simpa using hp), ← hrest]
  exact congrArg Except.ok (hentries fun p hp => mem_processes.mpr hp)

/-- The listing is complete where every child's name is text. -/
theorem listDirectChildren_children : listDirectChildren snap.procFs ppid = .ok (snap.children ppid) ↔
    ∀ p ∈ snap.processes, (p.ppid : Int) = ppid → p.IsText := by
  rw [listDirectChildren_eq, Except.ok.injEq, children]
  have hsub : snap.processes.filter (fun p => (p.ppid : Int) = ppid ∧ p.IsText) =
      (snap.processes.filter fun p => (p.ppid : Int) = ppid).filter fun p => p.IsText := by
    rw [List.filter_filter]
    congr 1
    funext p
    simp [Bool.and_comm]
  rw [hsub]
  constructor
  · intro h
    have hlen := congrArg List.length h
    rw [List.length_map, List.length_map, List.length_filter_eq_length_iff] at hlen
    intro p hp hppid
    simpa using hlen p (by simp [hp, hppid])
  · intro h
    rw [List.filter_eq_self.mpr]
    intro p hp
    rw [List.mem_filter, decide_eq_true_eq] at hp
    simpa using h p hp.1 hp.2

end Snapshot

/-! ## Termination -/

namespace ProcSystem

variable {W : Type} {sys : ProcSystem W} {supervisorPid : Int} {signal : Signal} {w' : W}

/-- The rounds end early where nothing is listed. -/
theorem rounds_true {n : Nat} : ∀ {w : W}, sys.rounds supervisorPid signal n w = (.ok true, w') →
    listDirectChildren (sys.procFs w') supervisorPid = .ok [] := by
  induction n with
  | zero =>
    intro w h
    cases h
  | succ n ih =>
    intro w h
    unfold rounds at h
    cases hl : listDirectChildren (sys.procFs (sys.reap w)) supervisorPid with
    | error e => simp [hl] at h
    | ok children =>
      simp only [hl] at h
      split at h
      · next hnil =>
        cases h
        rw [hl, hnil]
      · split at h
        · cases h
        · exact ih h

/-- **Success means that the last listing is empty.** -/
theorem terminateAdoptedDescendants_ok {w : W}
    (h : sys.terminateAdoptedDescendants supervisorPid w = (.ok (), w')) :
    listDirectChildren (sys.procFs w') supervisorPid = .ok [] := by
  unfold terminateAdoptedDescendants at h
  split at h
  · cases h
  · next hterm =>
    cases h
    exact rounds_true hterm
  · split at h
    · cases h
    · next hkill =>
      cases h
      exact rounds_true hkill
    · next w₂ _ =>
      dsimp only at h
      cases hl : listDirectChildren (sys.procFs (sys.reap w₂)) supervisorPid with
      | error e => simp [hl] at h
      | ok remaining =>
        simp only [hl] at h
        split at h
        · next hnil =>
          cases h
          rw [hl, hnil]
        · cases h

end ProcSystem

/-- **The children are listed exactly where the names of all of them are text**,
and where the last listing of a run that succeeds is of such a snapshot, no
child is left; where it is not, one is. -/
theorem children_listed_iff {W : Type} {snap : Snapshot} {ppid : Int} :
    (listDirectChildren snap.procFs ppid = .ok (snap.children ppid) ↔
      ∀ p ∈ snap.processes, (p.ppid : Int) = ppid → p.IsText) ∧
    ∀ (sys : ProcSystem W) (w w' : W), sys.procFs w' = snap.procFs →
      sys.terminateAdoptedDescendants ppid w = (.ok (), w') →
      (snap.children ppid = [] ↔ ∀ p ∈ snap.processes, (p.ppid : Int) = ppid → p.IsText) := by
  refine ⟨Snapshot.listDirectChildren_children, fun sys w w' hproc hrun => ?_⟩
  have hnil := ProcSystem.terminateAdoptedDescendants_ok hrun
  rw [hproc] at hnil
  constructor
  · intro h
    rw [← Snapshot.listDirectChildren_children, hnil, h]
  · intro h
    rw [Snapshot.listDirectChildren_children.mpr h, Except.ok.injEq] at hnil
    exact hnil

/-- A process of the supervisor 7, with its name. -/
def child (comm : List UInt8) (hlen : comm.length ≤ 15) (hnul : 0 ∉ comm) : Proc :=
  { pid := 100, ppid := 7, comm := comm, state := 'S', fields := [100, -1], pid_lt := by decide,
    ppid_lt := by decide, comm_length := hlen, comm_no_nul := hnul, state_letter := by decide }

/-- One child, named `) R 1 (`. -/
def parenthesised : Snapshot := ⟨[.process (child [41, 32, 82, 32, 49, 32, 40] (by decide) (by decide))], by decide⟩

/-- One child, with a name that is no UTF-8. -/
def hidden : Snapshot := ⟨[.process (child [255] (by decide) (by decide))], by decide⟩

/-- `/proc` does not change, and every signal is sent. -/
def still (snap : Snapshot) : ProcSystem Unit where
  procFs _ := snap.procFs
  reap w := w
  kill _ _ w := (.ok (), w)
  sleep w := w

theorem children_listed_parenthesised :
    listDirectChildren parenthesised.procFs 7 = .ok [100] ∧
      ∀ w', (still parenthesised).terminateAdoptedDescendants 7 () ≠ (.ok (), w') := by
  have htext : ∀ p ∈ parenthesised.processes, (p.ppid : Int) = 7 → p.IsText := by decide
  obtain ⟨hlist, hrun⟩ := @children_listed_iff Unit parenthesised 7
  refine ⟨hlist.mpr htext, fun w' h => ?_⟩
  exact absurd ((hrun _ _ _ rfl h).mpr htext) (by decide)

/-- The child is not listed, and the supervisor reports that none is left. -/
theorem children_not_listed :
    ¬∀ (W : Type) (snap : Snapshot) (ppid : Int), listDirectChildren snap.procFs ppid = .ok (snap.children ppid) ∧
      ∀ (sys : ProcSystem W) (w w' : W), sys.procFs w' = snap.procFs →
        sys.terminateAdoptedDescendants ppid w = (.ok (), w') → snap.children ppid = [] := by
  intro h
  obtain ⟨-, hrun⟩ := h Unit hidden 7
  have hlist : listDirectChildren hidden.procFs 7 = .ok [] := by
    rw [Snapshot.listDirectChildren_eq]
    decide
  have hok : (still hidden).terminateAdoptedDescendants 7 () = (.ok (), ()) := by
    have hround : (still hidden).rounds 7 .SIGTERM 10 () = (.ok true, ()) := by
      unfold ProcSystem.rounds
      simp [still, hlist]
    rw [ProcSystem.terminateAdoptedDescendants, hround]
  exact absurd (hrun _ () () rfl hok) (by decide)

end SecureSudoers
