/-
Is an accepted command its own normal form? What validation emits has its
clusters split, `=` and `--` dropped and its paths canonical. Given back as the
arguments, it must be read as it stands and pass the same checks.

It does where every item is `Reread` (`normalForm_iff`). Two things go wrong
elsewhere. The text of a positional path is checked against `safe_arg_regex`
before its links are followed and never after, so that a link can emit a path
the expression refuses. And a parameter may be named `-`, `--` or `-=`: read
out of a cluster or before a `=` it is that parameter, on a token of its own it
is a positional, the delimiter, or `-` with an empty value.
-/
import SecureSudoers.RedactionSecrecy

namespace SecureSudoers

variable {D : Type}

def texts (out : List (ValidatedArg D)) : List Str := out.map ValidatedArg.asStr

/-- The command line `out` is accepted, and emitted as it stands. -/
def IsNormalForm (check : PathCheck D) (regexNew : Str → Option Regex) (policy : SecureSudoersPolicy)
    (toolName : Str) (out : List Str) : Prop :=
  ∃ res, validateCommand check regexNew policy toolName out = .ok res ∧ texts res.command.args = out

/-! ## The condition -/

/-- The short flag `-c`, on a token of its own, is not read as something else:
as the delimiter, or as `-` with an empty value. -/
def ReadAlone (parameters : HashMap ParameterConfig) (c : Char) : Prop :=
  c ≠ '-' ∧ (c = '=' → parameters.get ['-'] = none)

/-- What the item emits is read as the same again. -/
def Reread (cmd : CommandParams D) : Item → Prop
  | .flag _ | .separate _ _ | .delimiter => True
  | .equals name _ => name ≠ ['-'] ∧ name ≠ ['-', '-']
  | .cluster seen => ∀ c ∈ seen, ReadAlone cmd.tool.parameters c
  | .clusterSeparate seen c _ => (∀ d ∈ seen, ReadAlone cmd.tool.parameters d) ∧ c ≠ '-'
  | .attached seen c _ => (∀ d ∈ seen, ReadAlone cmd.tool.parameters d) ∧ c ≠ '-' ∧ c ≠ '='
  | .trailingEq seen => (∀ d ∈ seen, ReadAlone cmd.tool.parameters d) ∧ cmd.tool.parameters.get ['-'] = none
  | .positional context raw => ∀ config p, cmd.tool.positional = some config → config.paramType = .path →
      cmd.check raw context cmd.blockedPaths = .ok p → cmd.safeRe.isMatch p.path = true

/-- The item gives a value to a parameter named `-`. -/
def ValuesDash (parameters : HashMap ParameterConfig) : Item → Prop
  | .equals name _ => name = ['-']
  | .trailingEq _ => parameters.get ['-'] ≠ none
  | _ => False

/-! ## The names of a reading -/

/-- A token that can only be the flag of that name, or a cluster. -/
structure IsFlagName (name : Str) : Prop where
  dash : ∃ cs, name = '-' :: cs
  ne_dash : name ≠ ['-']
  ne_delimiter : name ≠ ['-', '-']
  no_eq : '=' ∉ name

theorem isFlagName_short {c : Char} : IsFlagName ['-', c] ↔ c ≠ '-' ∧ c ≠ '=' := by
  constructor
  · intro h
    exact ⟨fun hc => h.ne_delimiter (hc ▸ rfl), fun hc => h.no_eq (by simp [hc])⟩
  · intro ⟨hd, he⟩
    exact ⟨⟨_, rfl⟩, by simp, by simpa using hd, by simp [Ne.symm he]⟩

theorem IsFlagName.splitFlag {name : Str} (h : IsFlagName name) : splitFlag name none = (name, none) := by
  have hs : Str.splitOnce '=' name = none := splitOnce_none.mpr h.no_eq
  simp only [SecureSudoers.splitFlag, hs]

/-- What the syntax of an item says about its flags. -/
def Spelled : Item → Prop
  | .flag name | .separate name _ => IsFlagName name
  | .equals name _ => (∃ cs, name = '-' :: cs) ∧ '=' ∉ name
  | .cluster seen => seen ≠ []
  | .clusterSeparate _ c _ => c ≠ '='
  | .attached _ _ value => value ≠ []
  | _ => True

variable {parameters : HashMap ParameterConfig} {iter iter' : List Str}

theorem readCluster_spelled {item : Item} : ∀ {chars seen : List Char}, seen ++ chars ≠ [] →
    readCluster parameters seen chars iter = some (item, iter') → Spelled item
  | [], seen, hne, h => by
    cases h
    rw [List.append_nil] at hne
    exact hne
  | c :: chars, seen, _, h => by
    unfold readCluster at h
    split at h
    · cases h
    · split at h
      · exact readCluster_spelled (by simp) h
      · split at h
        · next hchars =>
          cases h
          exact hchars
        · split at h
          · cases h
            trivial
          · next hc =>
            split at h
            · cases h
              exact hc
            · cases h

theorem readFlag_spelled {arg : Str} {item : Item} (hd : Str.startsWith arg "-" = true) (h1 : arg ≠ ['-'])
    (h2 : arg ≠ ['-', '-']) (h : readFlag parameters arg iter = some (item, iter')) : Spelled item := by
  obtain ⟨cs, rfl⟩ := startsWith_dash.mp hd
  -- the whole token is the name, or the name ends at the first `=`
  have hname : (splitFlag ('-' :: cs) none = ('-' :: cs, none) ∧ '=' ∉ '-' :: cs) ∨
      ∃ name value, splitFlag ('-' :: cs) none = (name, some value) ∧ (∃ cs, name = '-' :: cs) ∧ '=' ∉ name := by
    unfold splitFlag
    cases hs : Str.splitOnce '=' ('-' :: cs) with
    | none => exact .inl ⟨rfl, splitOnce_none.mp hs⟩
    | some nv =>
      obtain ⟨name, value⟩ := nv
      obtain ⟨htok, hno⟩ := splitOnce_some hs
      refine .inr ⟨name, value, rfl, ?_, hno⟩
      cases name with
      | nil => cases htok
      | cons d name =>
        cases htok
        exact ⟨name, rfl⟩
  have hcluster : [] ++ cs ≠ [] := fun hcs => h1 (congrArg ('-' :: ·) hcs)
  unfold readFlag at h
  obtain ⟨hsplit, hno⟩ | ⟨name, value, hsplit, hdash, hno⟩ := hname <;> simp only [hsplit] at h
  · split at h
    · split at h
      · cases h
      · exact readCluster_spelled hcluster h
    · split at h
      · cases h
        exact ⟨⟨cs, rfl⟩, h1, h2, hno⟩
      · cases h
      · next heq _ => cases heq
      · cases h
        exact ⟨⟨cs, rfl⟩, h1, h2, hno⟩
      · cases h
  · split at h
    · split at h
      · cases h
      · exact readCluster_spelled hcluster h
    · split at h
      · next heq => cases heq
      · cases h
      · cases h
        exact ⟨hdash, hno⟩
      · next heq _ => cases heq
      · cases h

/-- One argument is the delimiter and what follows it, or one item. -/
theorem readArg_spelled {arg : Str} {items : List Item} (h : readArg parameters arg iter = some (items, iter')) :
    (arg = ['-', '-'] ∧ iter' = [] ∧ items = .delimiter :: iter.map (.positional .delimitedPositional)) ∨
      (arg ≠ ['-', '-'] ∧ ∃ item, items = [item] ∧ Spelled item ∧ item.tokens ++ iter' = arg :: iter) := by
  have htok := readArg_tokens h
  unfold readArg at h
  split at h
  · next hd =>
    cases h
    exact .inl ⟨hd, rfl, rfl⟩
  · next hd =>
    refine .inr ⟨hd, ?_⟩
    split at h
    · next hs =>
      obtain ⟨⟨item, iter₁⟩, hf, he⟩ := Option.map_eq_some_iff.mp h
      cases he
      obtain ⟨hs, hne⟩ := dash_longer.mp hs
      exact ⟨item, rfl, readFlag_spelled hs hne hd hf, by simpa using htok⟩
    · cases h
      exact ⟨_, rfl, trivial, by simpa using htok⟩

theorem readArgsN_spelled : ∀ {fuel : Nat} {iter : List Str} {items : List Item},
    readArgsN parameters fuel iter = some items → ∀ item ∈ items, Spelled item
  | _, [], items, h, item, hm => by
    unfold readArgsN at h
    cases h
    cases hm
  | 0, _ :: _, _, h, _, _ => by
    unfold readArgsN at h
    cases h
  | fuel + 1, arg :: iter, items, h, item, hm => by
    obtain ⟨⟨items₁, iter₁⟩, h₁, h⟩ := Option.bind_eq_some_iff.mp h
    obtain ⟨items₂, h₂, h⟩ := Option.bind_eq_some_iff.mp h
    cases h
    rcases List.mem_append.mp hm with hm | hm
    · obtain ⟨-, -, rfl⟩ | ⟨-, item', rfl, hs, -⟩ := readArg_spelled h₁
      · rcases List.mem_cons.mp hm with rfl | hm
        · trivial
        · obtain ⟨raw, -, rfl⟩ := List.mem_map.mp hm
          trivial
      · cases List.mem_singleton.mp hm
        exact hs
    · exact readArgsN_spelled h₂ item hm

/-! ## Emitted tokens, read again -/

variable {fs : FileSystem D} {cmd : CommandParams D} {out : List (ValidatedArg D)}

theorem texts_append {a b : List (ValidatedArg D)} : texts (a ++ b) = texts a ++ texts b := List.map_append

/-- The tokens `ts` are read from here on, and emitted as they stand. -/
def Again (cmd : CommandParams D) (out : List (ValidatedArg D)) (ts : List Str) : Prop :=
  ∃ res, parseArgs cmd ts out = .ok res ∧ texts res = texts out ++ ts

theorem again_nil : Again cmd out [] := ⟨out, parseArgs_nil, (List.append_nil _).symm⟩

/-- One argument that emits the tokens it took. -/
theorem again_step {arg : Str} {u : List (ValidatedArg D)} (h : parseArg cmd arg iter out = .ok (iter', out ++ u))
    (ht : arg :: iter = texts u ++ iter') : Again cmd out (arg :: iter) ↔ Again cmd (out ++ u) iter' := by
  unfold Again
  rw [parseArgs_cons, h, ht, texts_append, List.append_assoc]
  exact Iff.rfl

/-- What the loop does from an argument on, it does with that argument first. -/
theorem Again.cases {arg : Str} (h : Again cmd out (arg :: iter)) :
    ∃ items chunks iter' res, readArg cmd.tool.parameters arg iter = some (items, iter') ∧
      List.Forall₂ (Emits cmd) items chunks ∧ parseArgs cmd iter' (out ++ chunks.flatten) = .ok res ∧
      texts res = texts out ++ arg :: iter := by
  obtain ⟨res, hp, ht⟩ := h
  rw [parseArgs_cons] at hp
  obtain ⟨⟨iter', out'⟩, h₁, h₂⟩ := bind_ok.mp hp
  obtain ⟨items, chunks, hr, hem, rfl, -⟩ := parseArg_reads h₁
  exact ⟨items, chunks, iter', res, hr, hem, h₂, ht⟩

theorem emits_one {item : Item} {chunks : List (List (ValidatedArg D))}
    (h : List.Forall₂ (Emits cmd) [item] chunks) : Emits cmd item chunks.flatten := by
  cases h with
  | cons he hnil =>
    cases hnil
    rw [List.flatten_cons, List.flatten_nil, List.append_nil]
    exact he

/-- The loop only adds to what has been emitted. -/
theorem texts_parseArgs {res : List (ValidatedArg D)} (h : parseArgs cmd iter out = .ok res) :
    ∃ more, texts res = texts out ++ more := by
  obtain ⟨_, chunks, -, -, rfl⟩ := parseArgs_reads h
  exact ⟨texts chunks.flatten, texts_append⟩

theorem IsFlagName.parseArg {name : Str} {r : List Str × List (ValidatedArg D)} (h : IsFlagName name)
    (hf : flagWithValue cmd.flags name none iter out = .ok (some r)) : parseArg cmd name iter out = .ok r := by
  have hdash := startsWith_dash.mpr h.dash
  unfold SecureSudoers.parseArg
  rw [if_neg h.ne_delimiter]
  split
  · rw [processLongFlag, hf]
    rfl
  · rw [if_pos (dash_longer.mpr ⟨hdash, h.ne_dash⟩), processShortFlag, hf]
    rfl

theorem again_bool {name : Str} (h : IsFlagName name) (hb : IsBoolFlag cmd name) :
    Again cmd out (name :: iter) ↔ Again cmd (out ++ [.string name]) iter := by
  obtain ⟨config, hg, ht⟩ := hb
  refine again_step (h.parseArg ?_) rfl
  simp [flagWithValue, h.splitFlag, CommandParams.flags, hg, ht]

/-- A flag and its value, which passes its checks again. -/
theorem again_valued (hcheck : cmd.check = checkPath fs) {name value : Str} {u : List (ValidatedArg D)}
    (h : IsFlagName name) (hv : Valued cmd name value u) :
    Again cmd out (texts u ++ iter) ↔ Again cmd (out ++ u) iter := by
  cases hv with
  | @string config hg ht hadm =>
    refine again_step (h.parseArg ?_) rfl
    have hpush := (@pushStringFlagValue_ok _ cmd.flags name value config out _).mpr ⟨hadm, rfl⟩
    simp only [flagWithValue, h.splitFlag]
    rw [show cmd.flags.parameters.get name = some config from hg]
    simp only [ht]
    exact bind_ok.mpr ⟨(value, iter), rfl, bind_ok.mpr ⟨_, hpush, rfl⟩⟩
  | @path config p hg ht hc hadm =>
    refine again_step (h.parseArg ?_) rfl
    have hc' : cmd.check p.path (.flag name) cmd.blockedPaths = .ok p := by
      rw [hcheck] at hc ⊢
      exact checkPath_again hc
    have hpush := (@pushPathFlagValue_ok _ cmd.flags name p.path config out _).mpr ⟨p, ⟨hc', hadm⟩, rfl⟩
    simp only [flagWithValue, h.splitFlag]
    rw [show cmd.flags.parameters.get name = some config from hg]
    simp only [ht]
    exact bind_ok.mpr ⟨(p.path, iter), rfl, bind_ok.mpr ⟨_, hpush, rfl⟩⟩

theorem not_flagLike {t : Str} : ¬FlagLike t ↔ (Str.startsWith t "-" = true → t = ['-']) := by
  rw [startsWith_dash, FlagLike, List.head?_eq_some_iff]
  constructor
  · rintro h ⟨cs, rfl⟩
    have hlen : ¬1 < ('-' :: cs).length := fun hl => h ⟨⟨cs, rfl⟩, hl⟩
    rw [List.length_cons, Nat.lt_add_left_iff_pos, Nat.not_lt, Nat.le_zero, List.length_eq_zero_iff] at hlen
    rw [hlen]
  · rintro h ⟨hd, hlen⟩
    rw [h hd] at hlen
    exact absurd hlen (by decide)

/-- A token that is no flag is read as a positional. -/
theorem readArg_positional {arg : Str} (h : ¬FlagLike arg) :
    readArg parameters arg iter = some ([.positional .positional arg], iter) := by
  have hdd : arg ≠ ['-', '-'] := by
    rintro rfl
    exact h ⟨rfl, by decide⟩
  rw [readArg, if_neg hdd, if_neg (not_dash_longer.mpr (not_flagLike.mp h))]

theorem parseArg_positional {arg : Str} {u : List (ValidatedArg D)} (h : ¬FlagLike arg)
    (hp : Positional cmd .positional arg u) : parseArg cmd arg iter out = .ok (iter, out ++ u) := by
  have hdd : ¬Str.startsWith arg "--" = true := by
    intro hdd
    obtain ⟨t, rfl⟩ := List.isPrefixOf_iff_prefix.mp hdd
    exact h ⟨rfl, by simp⟩
  have hd : arg ≠ ['-', '-'] := by
    rintro rfl
    exact hdd rfl
  rw [parseArg, if_neg hd, if_neg hdd, if_neg (not_dash_longer.mpr (not_flagLike.mp h)), pushPositional_of hp]
  rfl

/-- A positional passes its checks again, but for the expression on its canonical path. -/
theorem again_positional (hcheck : cmd.check = checkPath fs) {context : ValidationContext} {raw : Str}
    {u : List (ValidatedArg D)} (hp : Positional cmd context raw u) :
    Again cmd out (texts u ++ iter) ↔ Reread cmd (.positional context raw) ∧ Again cmd (out ++ u) iter := by
  cases hp with
  | @path config p hsafe hc ht hchk hadm =>
    have hflag : ¬FlagLike p.path := not_flagLike_path (hcheck ▸ hchk)
    have hchk' : cmd.check p.path .positional cmd.blockedPaths = .ok p := by
      rw [hcheck] at hchk ⊢
      exact checkPath_again hchk
    have hreread : Reread cmd (.positional context raw) ↔ cmd.safeRe.isMatch p.path = true := by
      constructor
      · intro h
        exact h config p hc ht hchk
      · intro h config' q _ _ hq
        rw [hchk] at hq
        cases hq
        exact h
    rw [hreread]
    constructor
    · intro h
      obtain ⟨items, chunks, iter', res, hr, hem, -, -⟩ := h.cases
      rw [show (ValidatedArg.path p).asStr = p.path from rfl, readArg_positional hflag] at hr
      cases hr
      cases hem with
      | cons he _ =>
        cases he with
        | positional hp =>
          have hs : cmd.safeRe.isMatch p.path = true := by
            cases hp with
            | path hs _ _ _ _ => exact hs
            | plain hs _ _ => exact hs
          exact ⟨hs, (again_step (parseArg_positional hflag (.path hs hc ht hchk' hadm)) rfl).mp h⟩
    · rintro ⟨hs, h⟩
      exact (again_step (parseArg_positional hflag (.path hs hc ht hchk' hadm)) rfl).mpr h
  | plain hsafe hrules hdash =>
    have hreread : Reread cmd (.positional context raw) := fun config _ hc ht => absurd ht (hrules config hc).1
    rw [and_iff_right hreread]
    exact again_step (parseArg_positional (not_flagLike.mpr hdash) (.plain hsafe hrules hdash)) rfl

/-! ## Short flags on tokens of their own -/

theorem positionals_length {context : ValidationContext} : ∀ {args : List Str} {chunks : List (List (ValidatedArg D))},
    List.Forall₂ (Emits cmd) (args.map (.positional context)) chunks → chunks.flatten.length = args.length
  | [], _, h => by
    cases h
    rfl
  | arg :: args, _, h => by
    cases h with
    | cons he h =>
      cases he with
      | positional hp =>
        rw [List.flatten_cons, List.length_append, positionals_length h, List.length_cons, Nat.add_comm]
        cases hp <;> rfl

/-- The delimiter emits nothing, and what follows it one token each. -/
theorem delimited_length {args : List Str} {chunks : List (List (ValidatedArg D))}
    (h : List.Forall₂ (Emits cmd) (.delimiter :: args.map (.positional .delimitedPositional)) chunks) :
    (texts chunks.flatten).length = args.length := by
  cases h with
  | cons he h =>
    cases he
    rw [List.flatten_cons, List.nil_append, texts, List.length_map, positionals_length h]

theorem not_again_delimiter : ¬Again cmd out (['-', '-'] :: iter) := by
  intro h
  obtain ⟨items, chunks, iter', res, hr, hem, hp, ht⟩ := h.cases
  obtain ⟨-, rfl, rfl⟩ | ⟨hne, -⟩ := readArg_spelled hr
  · rw [parseArgs_nil, Except.ok.injEq] at hp
    have hlen := congrArg List.length ht
    rw [← hp, texts_append] at hlen
    simp only [List.length_append, List.length_cons, delimited_length hem] at hlen
    omega
  · exact hne rfl

theorem splitFlag_dashEq : splitFlag ['-', '='] none = (['-'], some []) := by decide

/-- `-=` is read as `-` with an empty value where `-` is declared. -/
theorem not_again_dash {config : ParameterConfig} (hg : cmd.tool.parameters.get ['-'] = some config) :
    ¬Again cmd out (['-', '='] :: iter) := by
  intro h
  obtain ⟨items, chunks, iter', res, hr, hem, hp, ht⟩ := h.cases
  have hitems : items = [.equals ['-'] []] := by
    rw [readArg, if_neg (by decide), if_pos (by decide), readFlag, splitFlag_dashEq] at hr
    simp only [hg] at hr
    obtain ⟨⟨item, iter₁⟩, hf, he⟩ := Option.map_eq_some_iff.mp hr
    cases he
    cases hty : config.paramType <;> rw [hty] at hf <;> cases hf <;> rfl
  rw [hitems] at hem
  have he := emits_one hem
  generalize chunks.flatten = u at he hp
  cases he with
  | equals hv =>
    obtain ⟨more, hmore⟩ := texts_parseArgs hp
    rw [ht, texts_append, List.append_assoc, List.append_cancel_left_eq] at hmore
    cases hv <;> simp [texts, ValidatedArg.asStr] at hmore

theorem not_again_short {c : Char} (h : ¬ReadAlone cmd.tool.parameters c) : ¬Again cmd out (['-', c] :: iter) := by
  intro ha
  refine h ⟨?_, ?_⟩
  · rintro rfl
    exact not_again_delimiter ha
  · rintro rfl
    cases hg : cmd.tool.parameters.get ['-'] with
    | none => rfl
    | some config => exact (not_again_dash hg ha).elim

/-- A short flag that is a Bool. -/
theorem again_short {c : Char} (hb : IsBoolFlag cmd ['-', c]) :
    Again cmd out (['-', c] :: iter) ↔
      ReadAlone cmd.tool.parameters c ∧ Again cmd (out ++ [.string ['-', c]]) iter := by
  by_cases h : ReadAlone cmd.tool.parameters c
  · rw [and_iff_right h]
    by_cases hc : c = '='
    · -- undeclared as `-` with an empty value, the token is a cluster of one
      subst hc
      obtain ⟨config, hg, ht⟩ := hb
      have hflag : flagWithValue cmd.flags ['-', '='] none iter out = .ok none := by
        simp only [flagWithValue, splitFlag_dashEq]
        rw [show cmd.flags.parameters.get ['-'] = none from h.2 rfl]
      have hcluster : clusterFlags cmd.flags ['='] iter out = .ok (iter, out ++ [.string ['-', '=']]) := by
        unfold clusterFlags
        dsimp only
        rw [show cmd.flags.parameters.get ['-', '='] = some config from hg]
        exact if_neg (not_not_intro ht)
      refine again_step ?_ rfl
      rw [parseArg, if_neg (by decide), if_neg (by decide), if_pos (by decide), processShortFlag, hflag]
      show ((clusterFlags cmd.flags ['='] iter out).mapError _) = _
      rw [hcluster]
      rfl
    · exact again_bool (isFlagName_short.mpr ⟨h.1, hc⟩) hb
  · exact iff_of_false (not_again_short h) fun h' => h h'.1

theorem again_shortFlags : ∀ {seen : List Char} {out : List (ValidatedArg D)}, (∀ c ∈ seen, IsBoolFlag cmd ['-', c]) →
    (Again cmd out (texts (shortFlags seen : List (ValidatedArg D)) ++ iter) ↔
      (∀ c ∈ seen, ReadAlone cmd.tool.parameters c) ∧ Again cmd (out ++ shortFlags seen) iter)
  | [], out, _ => by simp [shortFlags, texts]
  | c :: seen, out, h => by
    have hrest := @again_shortFlags seen (out ++ [.string ['-', c]]) fun d hd => h d (List.mem_cons_of_mem _ hd)
    have happ : out ++ shortFlags (c :: seen) = out ++ [.string ['-', c]] ++ shortFlags seen := by
      rw [List.append_assoc]
      rfl
    rw [List.forall_mem_cons, and_assoc, happ, ← hrest]
    exact again_short (h c List.mem_cons_self)

/-! ## The flag `-=` with a value -/

section DashEq

variable (hcheck : cmd.check = checkPath fs)
include hcheck

theorem Valued.texts {name value : Str} {u : List (ValidatedArg D)} (h : Valued cmd name value u) :
    ∃ t, texts u = [name, t] ∧ (t = value ∨ t.head? = some '/') := by
  cases h with
  | string => exact ⟨value, rfl, .inl rfl⟩
  | @path config p _ _ hc _ =>
    rw [hcheck] at hc
    obtain ⟨-, _, _, -, -, -, -, hp, -⟩ := checkPath_accepts.mp hc
    have habs : Path.isAbsolute p.path = true := hp ▸ isAbsolute_canonicalPath
    exact ⟨p.path, rfl, .inr (beq_iff_eq.mp habs)⟩

variable (hnone : cmd.tool.parameters.get ['-'] = none) (hvalue : ¬IsBoolFlag cmd ['-', '='])
include hnone

include hvalue in
/-- Only an attached value of `-=` emits a token that begins so. -/
theorem emits_dashEq {item : Item} {u : List (ValidatedArg D)} {x : Str} {ts : List Str} (he : Emits cmd item u)
    (hs : Spelled item) (hu : texts u = ('-' :: '=' :: x) :: ts) :
    ∃ v t, item = .attached [] '=' v ∧ x = [] ∧ ts = [t] ∧ (t = v ∨ t.head? = some '/') := by
  have hshort : ∀ {seen : List Char} {v : List (ValidatedArg D)}, (∀ c ∈ seen, IsBoolFlag cmd ['-', c]) →
      texts (shortFlags seen ++ v) = ('-' :: '=' :: x) :: ts → seen = [] := by
    intro seen v hb hu
    cases seen with
    | nil => rfl
    | cons c seen =>
      cases hu
      exact absurd (hb _ List.mem_cons_self) hvalue
  have hname : ∀ {name value : Str} {v : List (ValidatedArg D)}, Valued cmd name value v →
      texts v = ('-' :: '=' :: x) :: ts → '=' ∈ name := by
    intro name value v hv hu
    obtain ⟨t, ht, -⟩ := hv.texts hcheck
    rw [ht] at hu
    cases hu
    simp
  cases he with
  | flag =>
    cases hu
    exact absurd (by simp) hs.no_eq
  | equals hv => exact absurd (hname hv hu) hs.2
  | separate hv => exact absurd (hname hv hu) hs.no_eq
  | cluster hb => exact absurd (@hshort _ [] hb (by rwa [List.append_nil])) hs
  | clusterSeparate hb hv =>
    cases hshort hb hu
    obtain ⟨t, ht, -⟩ := hv.texts hcheck
    rw [shortFlags, List.map_nil, List.nil_append, ht] at hu
    cases hu
    exact absurd rfl hs
  | attached hb hv =>
    cases hshort hb hu
    obtain ⟨t, ht, hor⟩ := hv.texts hcheck
    rw [shortFlags, List.map_nil, List.nil_append, ht] at hu
    cases hu
    exact ⟨_, t, rfl, rfl, rfl, hor⟩
  | trailingEq hb hv =>
    cases hshort hb hu
    obtain rfl | hv := hv
    · cases hu
    · cases hv with
      | string hg | path hg =>
        rw [hnone] at hg
        cases hg
  | delimiter => cases hu
  | positional hp =>
    cases hp with
    | @path config p _ _ _ hc _ =>
      have hflag : ¬FlagLike p.path := not_flagLike_path (hcheck ▸ hc)
      have hpath : p.path = '-' :: '=' :: x := (List.cons.inj hu).1
      rw [hpath] at hflag
      exact absurd ⟨rfl, by simp⟩ hflag
    | plain _ _ hdash =>
      cases hu
      have := hdash (startsWith_dash.mpr ⟨_, rfl⟩)
      simp at this

omit hcheck hnone in
/-- Only the delimiter and `-=` emit nothing. -/
theorem emits_nothing {item : Item} {u : List (ValidatedArg D)} (he : Emits cmd item u) (hs : Spelled item)
    (hu : texts u = []) : item = .delimiter ∨ item = .trailingEq [] := by
  have hvalued : ∀ {name value : Str} {v : List (ValidatedArg D)}, Valued cmd name value v → v ≠ [] := by
    intro name value v hv hnil
    rw [hnil] at hv
    cases hv
  rw [texts, List.map_eq_nil_iff] at hu
  cases he with
  | flag => cases hu
  | equals hv | separate hv => exact absurd hu (hvalued hv)
  | cluster => exact absurd (List.map_eq_nil_iff.mp hu) hs
  | clusterSeparate _ hv | attached _ hv => exact absurd (List.append_eq_nil_iff.mp hu).2 (hvalued hv)
  | trailingEq =>
    cases List.map_eq_nil_iff.mp (List.append_eq_nil_iff.mp hu).1
    exact .inr rfl
  | delimiter => exact .inl rfl
  | positional hp => cases hp <;> cases hu

include hvalue in
/-- Tokens `-=…` that the loop owes it never catches up with: what emits the
first of them is another such token, and is owed in its turn. -/
theorem not_again_owed : ∀ {ts owed : List Str} {out res : List (ValidatedArg D)}, owed ≠ [] →
    (∀ w ∈ owed, ∃ x, w = '-' :: '=' :: x) → parseArgs cmd ts out = .ok res →
    texts res ≠ texts out ++ (owed ++ ts)
  | [], owed, out, res, hne, _, hp => by
    rw [parseArgs_nil, Except.ok.injEq] at hp
    rw [← hp, List.append_nil, ne_eq, List.self_eq_append_right]
    exact hne
  | t :: ts, w :: owed, out, res, _, hdash, hp => by
    intro ht
    rw [parseArgs_cons] at hp
    obtain ⟨⟨iter', out'⟩, h₁, h₂⟩ := bind_ok.mp hp
    change parseArgs cmd iter' out' = .ok res at h₂
    obtain ⟨items, chunks, hr, hem, rfl, -⟩ := parseArg_reads h₁
    obtain ⟨more, hmore⟩ := texts_parseArgs h₂
    obtain ⟨-, rfl, rfl⟩ | ⟨htok, item, rfl, hs, htoks⟩ := readArg_spelled hr
    · -- after the delimiter there is one token for each argument
      rw [parseArgs_nil, Except.ok.injEq] at h₂
      have hlen := congrArg List.length ht
      rw [← h₂, texts_append] at hlen
      simp only [List.length_append, List.length_cons, delimited_length hem] at hlen
      omega
    · have he := emits_one hem
      generalize chunks.flatten = u at he h₂ hmore
      cases hu : texts u with
      | nil =>
        obtain rfl | rfl := emits_nothing he hs hu
        · exact absurd (List.cons.inj htoks).1.symm htok
        · obtain ⟨rfl, rfl⟩ := List.cons.inj htoks
          have hdash' : ∀ v ∈ w :: owed ++ [['-', '=']], ∃ x, v = '-' :: '=' :: x :=
            List.forall_mem_append.mpr ⟨hdash, List.forall_mem_singleton.mpr ⟨[], rfl⟩⟩
          refine not_again_owed (by simp) hdash' h₂ (ht.trans ?_)
          rw [texts_append, hu, List.append_nil, List.append_assoc, List.singleton_append]
          rfl
      | cons a us =>
        obtain ⟨x, rfl⟩ := hdash w List.mem_cons_self
        rw [ht, texts_append, hu, List.append_assoc, List.append_cancel_left_eq, List.cons_append,
          List.cons_append] at hmore
        obtain ⟨rfl, htail⟩ := List.cons.inj hmore
        obtain ⟨v, t', rfl, rfl, rfl, hor⟩ := emits_dashEq hcheck hnone hvalue he hs hu
        obtain ⟨rfl, rfl⟩ := List.cons.inj htoks
        cases owed with
        | nil =>
          -- the value would have to be the token it is part of
          obtain ⟨hv, -⟩ := List.cons.inj htail
          rw [← hv] at hor
          rcases hor with hor | hor
          · have hlen := congrArg List.length hor
            simp only [List.nil_append, List.length_cons] at hlen
            omega
          · cases hor
        | cons y owed =>
          obtain ⟨hy, -⟩ := List.cons.inj htail
          have howed := (List.forall_mem_cons.mp (List.forall_mem_cons.mp hdash).2).2
          have hdash' : ∀ z ∈ owed ++ ['-' :: '=' :: v], ∃ x, z = '-' :: '=' :: x :=
            List.forall_mem_append.mpr ⟨howed, List.forall_mem_singleton.mpr ⟨v, rfl⟩⟩
          refine not_again_owed (by simp) hdash' h₂ (ht.trans ?_)
          rw [texts_append, hu, ← hy, List.append_assoc, List.append_assoc]
          rfl

end DashEq

/-- The flag `-=` with a value, on a token of its own: `-` with an empty value,
or nothing at all. -/
theorem not_again_dashEq (hcheck : cmd.check = checkPath fs) {config : ParameterConfig}
    (hg : cmd.tool.parameters.get ['-', '='] = some config) (ht : config.paramType ≠ .bool) :
    ¬Again cmd out (['-', '='] :: iter) := by
  intro h
  cases hnone : cmd.tool.parameters.get ['-'] with
  | some config => exact not_again_dash hnone h
  | none =>
    have hvalue : ¬IsBoolFlag cmd ['-', '='] := by
      rintro ⟨config', hg', ht'⟩
      rw [hg] at hg'
      cases hg'
      exact ht ht'
    obtain ⟨items, chunks, iter', res, hr, hem, hp, hres⟩ := h.cases
    obtain ⟨hd, -⟩ | ⟨-, item, rfl, hs, htoks⟩ := readArg_spelled hr
    · cases hd
    · have he := emits_one hem
      generalize chunks.flatten = u at he hp
      obtain ⟨more, hmore⟩ := texts_parseArgs hp
      cases hu : texts u with
      | nil =>
        obtain rfl | rfl := emits_nothing he hs hu
        · cases htoks
        · obtain ⟨-, rfl⟩ := List.cons.inj htoks
          have hdash : ∀ v ∈ [['-', '=']], ∃ x, v = '-' :: '=' :: x := List.forall_mem_singleton.mpr ⟨[], rfl⟩
          refine not_again_owed hcheck hnone hvalue (by simp) hdash hp (hres.trans ?_)
          rw [texts_append, hu, List.append_nil]
          rfl
      | cons a us =>
        rw [hres, texts_append, hu, List.append_assoc, List.append_cancel_left_eq, List.cons_append] at hmore
        obtain ⟨rfl, -⟩ := List.cons.inj hmore
        obtain ⟨v, t', rfl, -, -, -⟩ := emits_dashEq hcheck hnone hvalue he hs hu
        obtain ⟨hv, -⟩ := List.cons.inj htoks
        exact hs (by simpa [Item.tokens] using hv)

/-! ## Items -/

theorem again_shortValued (hcheck : cmd.check = checkPath fs) {c : Char} {value : Str} {u : List (ValidatedArg D)}
    (hv : Valued cmd ['-', c] value u) :
    Again cmd out (texts u ++ iter) ↔ (c ≠ '-' ∧ c ≠ '=') ∧ Again cmd (out ++ u) iter := by
  by_cases h : c ≠ '-' ∧ c ≠ '='
  · rw [and_iff_right h]
    exact again_valued hcheck (isFlagName_short.mpr h) hv
  · refine iff_of_false (fun ha => h ⟨?_, ?_⟩) fun h' => h h'.1
    · rintro rfl
      cases hv <;> exact not_again_delimiter ha
    · rintro rfl
      cases hv with
      | string hg ht _ | path hg ht _ _ => exact not_again_dashEq hcheck hg (by rw [ht]; decide) ha

/-- **An item is read again exactly when it is `Reread`**, unless it gives a value to `-`. -/
theorem again_item (hcheck : cmd.check = checkPath fs) {item : Item} {u : List (ValidatedArg D)}
    (he : Emits cmd item u) (hs : Spelled item) (hd : ¬ValuesDash cmd.tool.parameters item) :
    Again cmd out (texts u ++ iter) ↔ Reread cmd item ∧ Again cmd (out ++ u) iter := by
  cases he with
  | flag hb =>
    rw [Reread, true_and]
    exact again_bool hs hb
  | @equals name _ _ hv =>
    by_cases hdd : name = ['-', '-']
    · refine iff_of_false (fun ha => ?_) fun h => h.1.2 hdd
      subst hdd
      cases hv <;> exact not_again_delimiter ha
    · rw [Reread, and_iff_right ⟨hd, hdd⟩]
      exact again_valued hcheck ⟨hs.1, hd, hdd, hs.2⟩ hv
  | separate hv =>
    rw [Reread, true_and]
    exact again_valued hcheck hs hv
  | cluster hb => exact again_shortFlags hb
  | clusterSeparate hb hv =>
    have hc : ∀ c : Char, c ≠ '=' → (c ≠ '-' ∧ c ≠ '=' ↔ c ≠ '-') := fun c h => and_iff_left h
    rw [texts_append, List.append_assoc, again_shortFlags hb, again_shortValued hcheck hv, hc _ hs, ← and_assoc,
      List.append_assoc]
    rfl
  | attached hb hv =>
    rw [texts_append, List.append_assoc, again_shortFlags hb, again_shortValued hcheck hv, ← and_assoc,
      List.append_assoc]
    rfl
  | trailingEq hb hv =>
    have hnone : cmd.tool.parameters.get ['-'] = none := Classical.not_not.mp hd
    obtain rfl | hv := hv
    · rw [List.append_nil, again_shortFlags hb, Reread, and_iff_left hnone]
    · cases hv with
      | string hg | path hg =>
        rw [hnone] at hg
        cases hg
  | delimiter =>
    rw [Reread, true_and, List.append_nil]
    exact Iff.rfl
  | positional hp => exact again_positional hcheck hp

theorem ValuesDash.not_reread {item : Item} (h : ValuesDash cmd.tool.parameters item) : ¬Reread cmd item := by
  cases item with
  | equals name value => exact fun hr => hr.1 h
  | trailingEq seen => exact fun hr => h hr.2
  | _ => exact h.elim

theorem again_items (hcheck : cmd.check = checkPath fs) {items : List Item} {chunks : List (List (ValidatedArg D))}
    (h : List.Forall₂ (Emits cmd) items chunks) : ∀ {out : List (ValidatedArg D)}, (∀ item ∈ items, Spelled item) →
      ((∀ item ∈ items, Reread cmd item) → Again cmd out (texts chunks.flatten)) ∧
        (Again cmd out (texts chunks.flatten) →
          (∀ item ∈ items, Reread cmd item) ∨ ∃ item ∈ items, ValuesDash cmd.tool.parameters item) := by
  induction h with
  | nil =>
    intro out _
    exact ⟨fun _ => again_nil, fun _ => .inl (by simp)⟩
  | @cons item u items chunks he _ ih =>
    intro out hs
    obtain ⟨hitem, hs⟩ := List.forall_mem_cons.mp hs
    obtain ⟨hto, hfrom⟩ := @ih (out ++ u) hs
    rw [List.flatten_cons, texts_append, List.forall_mem_cons]
    by_cases hd : ValuesDash cmd.tool.parameters item
    · exact ⟨fun h => absurd h.1 hd.not_reread, fun _ => .inr ⟨item, List.mem_cons_self, hd⟩⟩
    · rw [again_item hcheck he hitem hd]
      refine ⟨fun h => ⟨h.1, hto h.2⟩, fun h => ?_⟩
      obtain hall | ⟨item', hm, hd'⟩ := hfrom h.2
      · exact .inl ⟨h.1, hall⟩
      · exact .inr ⟨item', List.mem_cons_of_mem _ hm, hd'⟩

/-! ## The command -/

/-- The verb is taken again. -/
theorem takeVerb_again {args ts : List Str} (h : takeVerb cmd args = .ok (iter, out)) :
    takeVerb cmd (texts out ++ ts) = .ok (ts, out) := by
  obtain ⟨hnil, rfl, -⟩ | ⟨verb, hm, -, rfl⟩ := takeVerb_ok h
  · unfold takeVerb
    rw [if_pos hnil]
    rfl
  · unfold takeVerb
    rw [if_neg (List.ne_nil_of_mem hm)]
    exact if_pos hm

/-- The emitted command is a normal form when the loop emits its tokens again. -/
theorem isNormalForm_iff_again {check : PathCheck D} {regexNew : Str → Option Regex} {policy : SecureSudoersPolicy}
    {toolName : Str} {tool : ToolPolicy} {safeRe : Regex} {args ts : List Str} {binary : SecurePath D}
    (ht : policy.tools.get toolName = some tool) (hs : regexNew policy.globalSettings.safeArgRegex = some safeRe)
    (hb : check tool.realBinary .positional policy.globalSettings.blockedPaths = .ok binary)
    (hv : takeVerb (commandParams check policy toolName tool safeRe) args = .ok (iter, out)) :
    IsNormalForm check regexNew policy toolName (texts out ++ ts) ↔
      Again (commandParams check policy toolName tool safeRe) out ts := by
  have hverb := @takeVerb_again _ _ _ _ _ ts hv
  constructor
  · rintro ⟨res, hok, htext⟩
    obtain ⟨tool', safeRe', iter', out', ht', hs', -, hv', hp⟩ := validateCommand_ok hok
    cases ht.symm.trans ht'
    cases hs.symm.trans hs'
    cases hverb.symm.trans hv'
    exact ⟨_, hp, htext⟩
  · rintro ⟨res, hp, htext⟩
    obtain ⟨res', hok, -, rfl⟩ := validateCommand_of ht hs hb hverb hp
    exact ⟨res', hok, htext⟩

/-- **An accepted command is its own normal form exactly when every item is read
again**: names that are not taken for something else, and positional paths whose
canonical text the expression admits. An item that gives a value to a parameter
named `-` is not `Reread`, and there the command need not fail. -/
theorem normalForm_iff {fs : FileSystem D} {regexNew : Str → Option Regex} {policy : SecureSudoersPolicy}
    {toolName : Str} {args : List Str} {res : ValidationResult D}
    (h : validateCommand (checkPath fs) regexNew policy toolName args = .ok res) :
    ∃ tool safeRe verb items, policy.tools.get toolName = some tool ∧
      regexNew policy.globalSettings.safeArgRegex = some safeRe ∧ readCommand tool args = some (verb, items) ∧
      ((∀ item ∈ items, Reread (commandParams (checkPath fs) policy toolName tool safeRe) item) →
        IsNormalForm (checkPath fs) regexNew policy toolName (texts res.command.args)) ∧
      (IsNormalForm (checkPath fs) regexNew policy toolName (texts res.command.args) →
        (∀ item ∈ items, Reread (commandParams (checkPath fs) policy toolName tool safeRe) item) ∨
          ∃ item ∈ items, ValuesDash tool.parameters item) := by
  obtain ⟨tool, safeRe, iter, out, ht, hs, hb, hv, hp⟩ := validateCommand_ok h
  obtain ⟨items, chunks, hr, hem, hargs⟩ := parseArgs_reads hp
  have hread : ∃ verb, readCommand tool args = some (verb, items) := by
    have hr' : readArgs tool.parameters iter = some items := hr
    unfold readCommand
    obtain ⟨hnil, -, rfl⟩ | ⟨verb, hm, rfl, -⟩ := takeVerb_ok hv
    · have hnil : tool.verbs = [] := hnil
      rw [if_pos hnil, hr']
      exact ⟨_, rfl⟩
    · have hne : tool.verbs ≠ [] := List.ne_nil_of_mem hm
      rw [if_neg hne]
      dsimp only
      rw [hr']
      exact ⟨_, rfl⟩
  obtain ⟨verb, hread⟩ := hread
  have hagain := @again_items _ fs (commandParams (checkPath fs) policy toolName tool safeRe) rfl _ _ hem out
    (readArgsN_spelled hr)
  refine ⟨tool, safeRe, verb, items, ht, hs, hread, ?_⟩
  rw [hargs, texts_append, isNormalForm_iff_again ht hs hb hv]
  exact hagain

/-- `ls -ls -x dir` emits its normal form. -/
theorem normalForm_ls :
    IsNormalForm (checkPath lsTree) defaultRegexNew lsPolicy "ls" (["-l", "-s", "-x", "dir"] : List Str) := by
  have h : validateCommand (checkPath lsTree) defaultRegexNew lsPolicy "ls" ["-ls", "-x", "dir"] =
      .ok { command := { binary := ⟨"/bin/ls", 2⟩,
                         args := [.string "-l", .string "-s", .string "-x", .string "dir"],
                         isolation := {}, envWhitelist := defaultCommonEnvWhitelist },
            ruleId := "ls" } := by rfl
  obtain ⟨tool, safeRe, verb, items, ht, hs, hr, hall, -⟩ := normalForm_iff h
  cases ht
  cases hs
  have hitems : readCommand lsTool ["-ls", "-x", "dir"] =
      some ([], [.clusterSeparate ['l'] 's' "-x", .positional .positional "dir"]) := by rfl
  rw [hitems] at hr
  cases hr
  refine hall fun item hm => ?_
  rcases List.mem_cons.mp hm with rfl | hm
  · refine ⟨fun c hc => ?_, by decide⟩
    cases List.mem_singleton.mp hc
    exact ⟨by decide, by decide⟩
  · cases List.mem_singleton.mp hm
    intro config p hc
    cases hc

/-- `/dir with a space`, and a link to it. -/
def spaceTree : FileSystem Nat :=
  .ofTree [{ parent := 0, name := [], kind := .dir }, { parent := 0, name := Utf8.encode "a b", kind := .file },
    { parent := 0, name := Utf8.encode "l", kind := .symlink (Utf8.encode "a b") },
    { parent := 0, name := Utf8.encode "cat", kind := .file }] (by decide)

def catPolicy : SecureSudoersPolicy :=
  { globalSettings := {}
    tools := .single "cat" { realBinary := "/cat", positional := some { paramType := .path } } }

/-- The link passes the expression, and its target is emitted. -/
theorem normalForm_refused :
    ¬∀ (fs : FileSystem Nat) (regexNew : Str → Option Regex) (policy : SecureSudoersPolicy) (toolName : Str)
      (args : List Str) (res : ValidationResult Nat),
      validateCommand (checkPath fs) regexNew policy toolName args = .ok res →
      IsNormalForm (checkPath fs) regexNew policy toolName (texts res.command.args) := by
  intro h
  have hok : validateCommand (checkPath spaceTree) defaultRegexNew catPolicy "cat" ["/l"] =
      .ok { command := { binary := ⟨"/cat", 3⟩, args := [.path ⟨"/a b", 1⟩], isolation := {},
                         envWhitelist := defaultCommonEnvWhitelist },
            ruleId := "cat" } := by rfl
  obtain ⟨res, hres, -⟩ := h _ _ _ _ _ _ hok
  have hrefused : (validateCommand (checkPath spaceTree) defaultRegexNew catPolicy "cat" ["/a b"]).toOption = none := by
    rfl
  rw [texts, List.map_singleton, show (ValidatedArg.path (⟨"/a b", 1⟩ : SecurePath Nat)).asStr = ("/a b" : Str) from rfl] at hres
  rw [hres] at hrefused
  cases hrefused

end SecureSudoers
