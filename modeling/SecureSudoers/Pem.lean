/-
Key files as text (`util.rs`, and the text `write_key_file` in `keys.rs` writes):
base64 between two marker lines.

`readPemBytes_section` says when the bytes read are those of a section with both
of its markers: always, but where the last one is missing. What `write_key_file`
writes is read back, with lines before it and text after it.
-/
import Mathlib.Data.List.DropRight
import SecureSudoers.Lib.Base64
import SecureSudoers.Storage

namespace SecureSudoers

/-! ## Lines -/

/-- `str::lines`. -/
def lines : Str → List Str
  | [] => []
  | '\r' :: '\n' :: rest => [] :: lines rest
  | '\n' :: rest => [] :: lines rest
  | c :: rest =>
    match lines rest with
    | [] => [[c]]
    | line :: more => (c :: line) :: more

/-- A character of a line before what follows it. -/
theorem lines_cons {c : Char} {rest : Str} (hc : c ≠ '\n') (hcr : c = '\r' → rest.head? ≠ some '\n') :
    lines (c :: rest) = (c :: (lines rest).headD []) :: (lines rest).tail := by
  have hpair : ∀ more, c = '\r' → rest = '\n' :: more → False := by
    intro more hr hn
    exact hcr hr (by rw [hn]; rfl)
  rw [lines]
  · cases lines rest <;> rfl
  · exact hpair
  · exact hc

/-- A line and its end. -/
theorem lines_line {line rest : Str} (hnl : '\n' ∉ line) (hcr : line.getLast? ≠ some '\r') :
    lines (line ++ '\n' :: rest) = line :: lines rest := by
  induction line with
  | nil => simp [lines]
  | cons c line ih =>
    obtain ⟨hc, hnl⟩ := List.ne_and_not_mem_of_not_mem_cons hnl
    have hlast : line.getLast? ≠ some '\r' := by
      cases line with
      | nil => simp
      | cons d more => simpa using hcr
    have hpair : c = '\r' → (line ++ '\n' :: rest).head? ≠ some '\n' := by
      intro hr
      cases line with
      | nil => simp [hr] at hcr
      | cons d more =>
        have hd := (List.ne_and_not_mem_of_not_mem_cons hnl).1
        simpa using Ne.symm hd
    rw [List.cons_append, lines_cons hc.symm hpair, ih hnl hlast]
    rfl

theorem lines_ne_nil {c : Char} {rest : Str} : lines (c :: rest) ≠ [] := by
  unfold lines
  split
  · simp_all
  · simp
  · simp
  · split <;> simp

/-- Whole lines before a text. -/
theorem lines_append {front rest : Str} (h : front = [] ∨ front.getLast? = some '\n') :
    lines (front ++ rest) = lines front ++ lines rest := by
  have hrest : ∀ {c : Char} {more : Str}, (c :: more = [] ∨ (c :: more).getLast? = some '\n') →
      more = [] ∨ more.getLast? = some '\n' := by
    intro c more hlast
    cases more with
    | nil => exact .inl rfl
    | cons d more => simpa using hlast
  induction front using lines.induct with
  | case1 => rfl
  | case2 more ih => simp [lines, ih (hrest (hrest h))]
  | case3 more ih => simp [lines, ih (hrest h)]
  | case4 c more hpair hc hnil ih =>
    cases more with
    | nil =>
      simp at h
      exact absurd h hc
    | cons d more => exact absurd hnil lines_ne_nil
  | case5 c more hpair hc line tail hlines ih =>
    have hpair' : c = '\r' → more.head? ≠ some '\n' := by
      intro hr hn
      obtain ⟨more', rfl⟩ := List.head?_eq_some_iff.mp hn
      exact hpair more' hr rfl
    have hpair'' : c = '\r' → (more ++ rest).head? ≠ some '\n' := by
      cases more with
      | nil => cases hlines
      | cons d more => exact hpair'
    rw [List.cons_append, lines_cons hc hpair'', lines_cons hc hpair', ih (hrest h), hlines]
    rfl

/-! ## Trimmed text -/

/-- No whitespace at the ends. -/
structure Trimmed (s : Str) : Prop where
  head : ∀ c ∈ s.head?, isWhitespace c = false
  last : ∀ c ∈ s.getLast?, isWhitespace c = false

theorem head?_dropWhile {p : Char → Bool} {s : Str} : ∀ c ∈ (s.dropWhile p).head?, p c = false := by
  intro c hc
  have h := List.head?_dropWhile_not p s
  rw [hc] at h
  exact h

theorem dropWhile_of_head? {p : Char → Bool} {s : Str} (h : ∀ c ∈ s.head?, p c = false) : s.dropWhile p = s := by
  cases s with
  | nil => rfl
  | cons c rest => rw [List.dropWhile_cons, h c rfl, if_neg Bool.false_ne_true]

theorem Trimmed.trim_eq {s : Str} (h : Trimmed s) : trim s = s := by
  have hlast : ∀ c ∈ s.reverse.head?, isWhitespace c = false := by simpa using h.last
  rw [trim, dropWhile_of_head? h.head, dropWhile_of_head? hlast, List.reverse_reverse]

theorem trimmed_trim {s : Str} : Trimmed (trim s) := by
  have hpre : trim s <+: s.dropWhile isWhitespace := List.rdropWhile_prefix _ _
  constructor
  · intro c hc
    obtain ⟨rest, hrest⟩ := hpre
    refine head?_dropWhile (s := s) c ?_
    rw [← hrest, List.head?_append, hc]
    rfl
  · intro c hc
    rw [trim, List.getLast?_reverse] at hc
    exact head?_dropWhile c hc

/-- Trimmed lines joined. -/
theorem Trimmed.flatten {ls : List Str} (h : ∀ l ∈ ls, Trimmed l) : Trimmed ls.flatten := by
  induction ls with
  | nil => exact ⟨by simp, by simp⟩
  | cons l ls ih =>
    rw [List.forall_mem_cons] at h
    obtain ⟨hhead, hlast⟩ := ih h.2
    constructor
    · intro c hc
      rw [List.flatten_cons, List.head?_append, Option.mem_def, Option.or_eq_some_iff] at hc
      rcases hc with hc | ⟨-, hc⟩
      · exact h.1.head c hc
      · exact hhead c hc
    · intro c hc
      rw [List.flatten_cons, List.getLast?_append, Option.mem_def, Option.or_eq_some_iff] at hc
      rcases hc with hc | ⟨-, hc⟩
      · exact hlast c hc
      · exact h.1.last c hc

/-! ## Base64 -/

/-- The engine of the `base64` crate. -/
structure Base64Engine where
  encode : Bytes → Str
  decode : Str → Except Str Bytes

/-- What its documentation says of `BASE64_STANDARD`. -/
structure Base64Engine.Standard (engine : Base64Engine) : Prop where
  /-- What is decoded is what is encoded. -/
  decode {s : Str} {bytes : Bytes} : engine.decode s = .ok bytes ↔ s = engine.encode bytes
  alphabet {bytes : Bytes} {c : Char} : c ∈ engine.encode bytes → c ∈ Base64.alphabet ∨ c = Base64.pad
  empty {bytes : Bytes} : engine.encode bytes = [] ↔ bytes = []

variable (engine : Base64Engine)

/-- `bytes_to_base64`. -/
def bytesToBase64 (bytes : Bytes) : Str := engine.encode bytes

/-- `base64_to_bytes`. -/
def base64ToBytes (b64 : Str) : Except Error Bytes :=
  (engine.decode (trim b64)).mapError fun e => .parse ("Invalid base64: " ++ e)

/-! ## Reading a file -/

/-- What reading a file depends on, besides the storage. -/
structure ReadHost where
  /-- `std::env::current_dir`. -/
  currentDir : Except Errno Bytes
  /-- Is the open or the read through `/proc/self/fd` refused? -/
  refuses : ExecutableIdentity → Option Errno

/-- An error, or that of `read_to_string` about octets that are no text. -/
inductive ReadError where
  | error (e : Error)
  | notUtf8 (context : Str)
  deriving DecidableEq, Repr

def ReadError.display : ReadError → Str
  | .error e => e.display
  | .notUtf8 context => context ++ ": stream did not contain valid UTF-8"

/-- The path that `read_file_to_string_securely` resolves. -/
def absolutePathStr (host : ReadHost) (path : Str) : Except Error Str :=
  if Path.isAbsolute path then .ok path
  else match host.currentDir with
    | .error e => .error (.ioContext ("Cannot resolve current directory while reading " ++ path) e)
    | .ok cwd =>
      let absolutePath := if cwd = [] ∨ cwd.getLast? = some slash then cwd ++ Utf8.encode path
        else cwd ++ slash :: Utf8.encode path
      match Utf8.decode? absolutePath with
      | none => .error (.validation ("Path contains invalid UTF-8: " ++ Utf8.lossy absolutePath))
      | some absolutePathStr => .ok absolutePathStr

/-- `read_file_to_string_securely`: the file is the one there when the path is resolved. -/
def readFileToStringSecurely (host : ReadHost) (beforeRead : Storage → Storage) (st : Storage) (path : Str) :
    Except ReadError Str :=
  match absolutePathStr host path with
  | .error e => .error (.error e)
  | .ok absolutePathStr =>
    match checkPath st.tree.fs absolutePathStr .positional [] with
    | .error e => .error (.error (.validation ("Cannot read " ++ path ++ ": " ++ e.display)))
    | .ok securePath =>
      let inode := (st.tree.fs.stat securePath.fd).identity
      let context : Str := "Cannot read " ++ path
      match host.refuses inode with
      | some e => .error (.error (.ioContext context e))
      | none =>
        if st.tree.kindAt securePath.fd = .dir then .error (.error (.ioContext context EISDIR))
        else match Utf8.decode? ((beforeRead st).content inode) with
          | none => .error (.notUtf8 context)
          | some content => .ok content

/-! ## Key files -/

def beginMarker (label : Str) : Str := "-----BEGIN " ++ label ++ "-----"
def endMarker (label : Str) : Str := "-----END " ++ label ++ "-----"

/-- What `write_key_file` writes. -/
def keyFileContent (label : Str) (bytes : Bytes) : Str :=
  beginMarker label ++ newline ++ bytesToBase64 engine bytes ++ newline ++ endMarker label ++ newline

/-- The text between the markers, without the lines' ends and what whitespace they have there. -/
def b64Content (content label : Str) : Str :=
  (((((lines content).dropWhile (· ≠ beginMarker label)).drop 1).takeWhile (· ≠ endMarker label)).map trim).flatten

def readPemBytesWithBeforeRead (host : ReadHost) (beforeRead : Storage → Storage) (st : Storage) (path label : Str) :
    Except ReadError Bytes := do
  let content ← readFileToStringSecurely host beforeRead st path
  let b64 := b64Content content label
  if b64 = [] then .error (.error (.parse ("No '" ++ label ++ "' section found in PEM file " ++ path)))
  else (base64ToBytes engine b64).mapError fun e =>
    .error (.parse ("Invalid base64 in '" ++ label ++ "' section of " ++ path ++ ": " ++ e.display))

def readPemBytes (host : ReadHost) (st : Storage) (path label : Str) : Except ReadError Bytes :=
  readPemBytesWithBeforeRead engine host id st path label

/-! ## What is read -/

variable {engine} {host : ReadHost} {beforeRead : Storage → Storage} {st : Storage} {path label content : Str}
  {bytes : Bytes}

/-- The text of a file that is there when the path is resolved, and no directory. -/
theorem readFileToStringSecurely_ok : readFileToStringSecurely host beforeRead st path = .ok content ↔
    ∃ absolute securePath, absolutePathStr host path = .ok absolute ∧
      checkPath st.tree.fs absolute .positional [] = .ok securePath ∧ st.tree.kindAt securePath.fd ≠ .dir ∧
        host.refuses (st.tree.fs.stat securePath.fd).identity = none ∧
          (beforeRead st).content (st.tree.fs.stat securePath.fd).identity = Utf8.encode content := by
  unfold readFileToStringSecurely
  cases absolutePathStr host path with
  | error e => simp
  | ok absolute =>
    dsimp only
    cases hcheck : checkPath st.tree.fs absolute .positional [] with
    | error e => simp [hcheck]
    | ok securePath =>
      dsimp only
      cases hrefuses : host.refuses (st.tree.fs.stat securePath.fd).identity with
      | some e => simp [hcheck, hrefuses]
      | none =>
        dsimp only
        split
        · next hdir => simp [hcheck, hdir]
        · next hdir =>
          cases htext : Utf8.decode? ((beforeRead st).content (st.tree.fs.stat securePath.fd).identity) with
          | none =>
            have hno : ∀ s, (beforeRead st).content (st.tree.fs.stat securePath.fd).identity ≠ Utf8.encode s := by
              intro s hs
              rw [Utf8.decode?_eq_some.mpr hs.symm] at htext
              cases htext
            simp [hcheck, hno]
          | some text =>
            rw [Utf8.decode?_eq_some] at htext
            simp [hcheck, hdir, hrefuses, ← htext, Utf8.encode_inj]

/-- Between the markers there is the encoding of `bytes`, which is not empty. -/
def Enclosed (engine : Base64Engine) (content label : Str) (bytes : Bytes) : Prop :=
  ∃ front body rest, lines content = front ++ beginMarker label :: (body ++ endMarker label :: rest) ∧
    beginMarker label ∉ front ∧ endMarker label ∉ body ∧
      (body.map trim).flatten = engine.encode bytes ∧ engine.encode bytes ≠ []

/-- It is there from the first marker to the end of the text. -/
def Unterminated (engine : Base64Engine) (content label : Str) (bytes : Bytes) : Prop :=
  ∃ front body, lines content = front ++ beginMarker label :: body ∧
    beginMarker label ∉ front ∧ endMarker label ∉ body ∧
      (body.map trim).flatten = engine.encode bytes ∧ engine.encode bytes ≠ []

theorem all_ne {α : Type} [DecidableEq α] {x : α} {l : List α} (h : x ∉ l) : ∀ y ∈ l, decide (y ≠ x) = true := by
  intro y hy
  have hne : y ≠ x := fun he => h (he ▸ hy)
  simpa using hne

/-- A list up to and from the first `x`. -/
theorem takeWhile_dropWhile_ne {α : Type} [DecidableEq α] {x : α} {front rest : List α} (h : x ∉ front) :
    (front ++ x :: rest).takeWhile (· ≠ x) = front ∧ (front ++ x :: rest).dropWhile (· ≠ x) = x :: rest := by
  have hfront := all_ne h
  rw [List.takeWhile_append_of_pos hfront, List.dropWhile_append_of_pos hfront]
  simp

/-- A list without `x`. -/
theorem takeWhile_dropWhile_none {α : Type} [DecidableEq α] {x : α} {l : List α} (h : x ∉ l) :
    l.takeWhile (· ≠ x) = l ∧ l.dropWhile (· ≠ x) = [] := by
  exact ⟨List.takeWhile_eq_self_iff.mpr (all_ne h), List.dropWhile_eq_nil_iff.mpr (all_ne h)⟩

theorem b64Content_section {front after : List Str} (hlines : lines content = front ++ beginMarker label :: after)
    (hfront : beginMarker label ∉ front) :
    b64Content content label = ((after.takeWhile (· ≠ endMarker label)).map trim).flatten := by
  rw [b64Content, hlines, (takeWhile_dropWhile_ne hfront).2]
  rfl

theorem b64Content_none (h : beginMarker label ∉ lines content) : b64Content content label = [] := by
  rw [b64Content, (takeWhile_dropWhile_none h).2]
  rfl

/-- The text read is that of a section, with its last marker or without. -/
theorem b64Content_encode : b64Content content label = engine.encode bytes ∧ engine.encode bytes ≠ [] ↔
    Enclosed engine content label bytes ∨ Unterminated engine content label bytes := by
  constructor
  · intro ⟨htext, hne⟩
    by_cases hbegin : beginMarker label ∈ lines content
    · obtain ⟨front, after, hlines, hfront⟩ := List.eq_append_cons_of_mem hbegin
      rw [b64Content_section hlines hfront] at htext
      by_cases hend : endMarker label ∈ after
      · obtain ⟨body, rest, rfl, hbody⟩ := List.eq_append_cons_of_mem hend
        rw [(takeWhile_dropWhile_ne hbody).1] at htext
        exact .inl ⟨front, body, rest, hlines, hfront, hbody, htext, hne⟩
      · rw [(takeWhile_dropWhile_none hend).1] at htext
        exact .inr ⟨front, after, hlines, hfront, hend, htext, hne⟩
    · rw [b64Content_none hbegin] at htext
      exact absurd htext.symm hne
  · intro h
    rcases h with ⟨front, body, rest, hlines, hfront, hbody, htext, hne⟩ |
      ⟨front, body, hlines, hfront, hbody, htext, hne⟩
    · rw [b64Content_section hlines hfront, (takeWhile_dropWhile_ne hbody).1]
      exact ⟨htext, hne⟩
    · rw [b64Content_section hlines hfront, (takeWhile_dropWhile_none hbody).1]
      exact ⟨htext, hne⟩

/-- What follows the first marker has the last one or has it not. -/
theorem not_enclosed_of_unterminated {bytes' : Bytes} (h : Unterminated engine content label bytes) :
    ¬Enclosed engine content label bytes' := by
  intro ⟨front', body', rest', hlines', hfront', _⟩
  obtain ⟨front, body, hlines, hfront, hbody, -⟩ := h
  have hdrop := (@takeWhile_dropWhile_ne _ _ _ _ body hfront).2
  rw [← hlines, hlines', (takeWhile_dropWhile_ne hfront').2] at hdrop
  obtain ⟨-, rfl⟩ := List.cons.inj hdrop
  exact hbody (List.mem_append_right _ List.mem_cons_self)

theorem trim_b64Content : trim (b64Content content label) = b64Content content label := by
  refine (Trimmed.flatten fun l hl => ?_).trim_eq
  obtain ⟨l', -, rfl⟩ := List.mem_map.mp hl
  exact trimmed_trim

theorem readPemBytes_ok (hengine : engine.Standard) :
    readPemBytesWithBeforeRead engine host beforeRead st path label = .ok bytes ↔
      ∃ content, readFileToStringSecurely host beforeRead st path = .ok content ∧
        (Enclosed engine content label bytes ∨ Unterminated engine content label bytes) := by
  unfold readPemBytesWithBeforeRead
  rw [bind_ok]
  refine exists_congr fun content => and_congr_right fun _ => ?_
  rw [← b64Content_encode]
  dsimp only
  split
  · next hnil =>
    refine iff_of_false (by simp) ?_
    intro ⟨htext, hne⟩
    exact hne (htext.symm.trans hnil)
  · next hne =>
    rw [mapError_ok, base64ToBytes, mapError_ok, trim_b64Content, hengine.decode]
    constructor
    · intro htext
      exact ⟨htext, htext ▸ hne⟩
    · intro htext
      exact htext.1

/-! ## What is written is read back -/

theorem marker_line {start label : Str} (hstart : '\n' ∉ start) (hlabel : '\n' ∉ label) :
    '\n' ∉ start ++ label ++ "-----".toList ∧ (start ++ label ++ "-----".toList).getLast? ≠ some '\r' := by
  have hlast : "-----".toList.getLast? = some '-' := by decide
  refine ⟨?_, ?_⟩
  · simp [hstart, hlabel]
  · rw [List.getLast?_append, hlast]
    simp

/-- What the engine writes is a line of its own, and no marker. -/
theorem Base64Engine.Standard.line (hengine : engine.Standard) : '\n' ∉ engine.encode bytes ∧
    (engine.encode bytes).getLast? ≠ some '\r' ∧ engine.encode bytes ≠ endMarker label ∧
      Trimmed (engine.encode bytes) := by
  have hplain : ∀ c ∈ engine.encode bytes, c ≠ '\n' ∧ c ≠ '\r' ∧ c ≠ '-' ∧ isWhitespace c = false := by
    intro c hc
    have hall : (Base64.pad :: Base64.alphabet).all (fun c => decide (c ≠ '\n' ∧ c ≠ '\r' ∧ c ≠ '-' ∧
        isWhitespace c = false)) = true := by decide
    refine of_decide_eq_true (List.all_eq_true.mp hall c ?_)
    rcases hengine.alphabet hc with hc | rfl
    · exact List.mem_cons_of_mem _ hc
    · exact List.mem_cons_self
  refine ⟨fun hc => (hplain _ hc).1 rfl, fun hlast => ?_, fun he => ?_, fun c hc => ?_, fun c hc => ?_⟩
  · exact (hplain _ (List.mem_of_getLast? hlast)).2.1 rfl
  · have hdash : '-' ∈ endMarker label := List.mem_append_right _ (by decide)
    exact (hplain _ (he ▸ hdash)).2.2.1 rfl
  · exact (hplain _ (List.mem_of_head? hc)).2.2.2
  · exact (hplain _ (List.mem_of_getLast? hc)).2.2.2

/-- The lines of a key file, between other lines and text. -/
theorem lines_keyFileContent (hengine : engine.Standard) (hlabel : '\n' ∉ label) {before after : Str}
    (hbefore : before = [] ∨ before.getLast? = some '\n') :
    lines (before ++ keyFileContent engine label bytes ++ after) =
      lines before ++ beginMarker label :: ([engine.encode bytes] ++ endMarker label :: lines after) := by
  have hbegin : '\n' ∉ beginMarker label ∧ (beginMarker label).getLast? ≠ some '\r' := marker_line (by decide) hlabel
  have hend : '\n' ∉ endMarker label ∧ (endMarker label).getLast? ≠ some '\r' := marker_line (by decide) hlabel
  obtain ⟨hb64, hb64', -⟩ := @Base64Engine.Standard.line engine label bytes hengine
  have hcontent : before ++ keyFileContent engine label bytes ++ after = before ++ (beginMarker label ++
      '\n' :: (engine.encode bytes ++ '\n' :: (endMarker label ++ '\n' :: after))) := by
    simp only [keyFileContent, newline, bytesToBase64, List.append_assoc, List.cons_append, List.nil_append]
  rw [hcontent, lines_append hbefore, lines_line hbegin.1 hbegin.2, lines_line hb64 hb64', lines_line hend.1 hend.2]
  rfl

theorem enclosed_keyFileContent (hengine : engine.Standard) (hlabel : '\n' ∉ label) (hbytes : bytes ≠ [])
    {before after : Str} (hbefore : before = [] ∨ before.getLast? = some '\n')
    (hfirst : beginMarker label ∉ lines before) :
    Enclosed engine (before ++ keyFileContent engine label bytes ++ after) label bytes := by
  obtain ⟨-, -, hne, htrim⟩ := @Base64Engine.Standard.line engine label bytes hengine
  refine ⟨lines before, [engine.encode bytes], lines after, lines_keyFileContent hengine hlabel hbefore, hfirst, ?_, ?_,
    mt hengine.empty.mp hbytes⟩
  · rw [List.mem_singleton]
    exact hne.symm
  · simp [htrim.trim_eq]

/-- **What is read are the bytes of a section with both markers** exactly if no
text goes on to its end after the first of them; and what `write_key_file` has
written is read back, with lines before it and any text after it. -/
theorem readPemBytes_section (hengine : engine.Standard) :
    ((∀ bytes, readPemBytesWithBeforeRead engine host beforeRead st path label = .ok bytes ↔
        ∃ content, readFileToStringSecurely host beforeRead st path = .ok content ∧
          Enclosed engine content label bytes) ↔
      ∀ content bytes, readFileToStringSecurely host beforeRead st path = .ok content →
        ¬Unterminated engine content label bytes) ∧
    ∀ bytes before after, '\n' ∉ label → bytes ≠ [] → (before = [] ∨ before.getLast? = some '\n') →
      beginMarker label ∉ lines before → readFileToStringSecurely host beforeRead st path =
        .ok (before ++ keyFileContent engine label bytes ++ after) →
      readPemBytesWithBeforeRead engine host beforeRead st path label = .ok bytes := by
  refine ⟨⟨?_, ?_⟩, ?_⟩
  · intro hsection content bytes hread hopen
    obtain ⟨content', hread', hboth⟩ := (hsection bytes).mp ((readPemBytes_ok hengine).mpr ⟨content, hread, .inr hopen⟩)
    cases hread.symm.trans hread'
    exact not_enclosed_of_unterminated hopen hboth
  · intro hclosed bytes
    rw [readPemBytes_ok hengine]
    refine exists_congr fun content => and_congr_right fun hread => ?_
    exact or_iff_left (hclosed content bytes hread)
  · intro bytes before after hlabel hbytes hbefore hfirst hread
    exact (readPemBytes_ok hengine).mpr ⟨_, hread, .inl (enclosed_keyFileContent hengine hlabel hbytes hbefore hfirst)⟩

/-! ## A key file -/

def base64Standard : Base64Engine where
  encode := Base64.encode
  decode s := match Base64.decode s with
    | some bytes => .ok bytes
    | none => .error "Invalid padding"

theorem base64Standard_standard : base64Standard.Standard where
  decode {s bytes} := by
    rw [base64Standard, ← Base64.decode_eq_some]
    dsimp only
    split <;> simp [*]
  alphabet := Base64.mem_encode
  empty := Base64.encode_eq_nil

/-- The one file `/key.pem`. -/
def keyTree : Tree := .ofList [(["key.pem"], .file 7)]

def keyStorage (text : Str) : Storage where
  tree := keyTree
  flags _ := 0
  content _ := Utf8.encode text

def rootHost : ReadHost where
  currentDir := .ok [slash]
  refuses _ := none

theorem read_keyStorage {text : Str} :
    readFileToStringSecurely rootHost id (keyStorage text) "/key.pem" = .ok text := by
  have hcheck : checkPath keyTree.fs "/key.pem" .positional [] = .ok _ := eq_ok_get (by decide +kernel)
  have hfile : keyTree.kindAt ((checkPath keyTree.fs "/key.pem" .positional []).toOption.get (by decide +kernel)).fd ≠
    .dir := by decide +kernel
  exact readFileToStringSecurely_ok.mpr ⟨_, _, rfl, hcheck, hfile, rfl, rfl⟩

/-- Among other lines and text, the key is read. -/
theorem read_key : readPemBytesWithBeforeRead base64Standard rootHost id
    (keyStorage ("# a key".toList ++ newline ++ keyFileContent base64Standard "K" [1, 2, 3] ++ "the end".toList))
    "/key.pem" "K" = .ok [1, 2, 3] :=
  (readPemBytes_section base64Standard_standard).2 [1, 2, 3] ("# a key".toList ++ newline) _ (by decide) (by decide)
    (.inr (by decide)) (by decide) read_keyStorage

/-- A key without its last marker is read as well. -/
theorem read_unterminated : ¬∀ (engine : Base64Engine) (host : ReadHost) (beforeRead : Storage → Storage)
    (st : Storage) (path label : Str), engine.Standard → '\n' ∉ label → ∀ bytes,
      readPemBytesWithBeforeRead engine host beforeRead st path label = .ok bytes ↔
        ∃ content, readFileToStringSecurely host beforeRead st path = .ok content ∧
          Enclosed engine content label bytes := by
  intro hall
  let text : Str := beginMarker "K" ++ newline ++ "AQID".toList ++ newline
  have hlines : lines text = [beginMarker "K", "AQID".toList] := by decide
  have hread : readPemBytesWithBeforeRead base64Standard rootHost id (keyStorage text) "/key.pem" "K" =
      .ok [1, 2, 3] :=
    (readPemBytes_ok base64Standard_standard).mpr ⟨text, read_keyStorage, .inr ⟨[], ["AQID".toList], hlines, by decide,
      by decide, by decide, by decide⟩⟩
  obtain ⟨content, hcontent, front, body, rest, hboth, -⟩ :=
    (hall base64Standard rootHost id (keyStorage text) "/key.pem" "K" base64Standard_standard (by decide) _).mp hread
  cases read_keyStorage.symm.trans hcontent
  have hend : endMarker "K" ∈ lines text := by
    rw [hboth]
    simp
  rw [hlines] at hend
  exact absurd hend (by decide)

end SecureSudoers
