/-
What is read of `SUDO_COMMAND` (`helpers/sudo_command.rs`): the tokens up to
the delegated command, and nothing after them. The arguments that follow may
end in a quote or a backslash; the tokens in front of them stay what they are.
-/
import Mathlib.Data.List.Infix
import SecureSudoers.Invocation

namespace SecureSudoers

theorem isWhitespace_ne_quote {c : Char} (h : isWhitespace c = true) :
    c ≠ singleQuote ∧ c ≠ doubleQuote ∧ c ≠ backslash := by
  refine ⟨?_, ?_, ?_⟩ <;> rintro rfl <;> revert h <;> decide

/-- Where a token may end, it ends. -/
theorem scanToken_breaks {t : Str} (h : Breaks t) : scanToken none false t = some ([], t.tail) := by
  obtain rfl | ⟨c, more, rfl, hc⟩ := h.cases
  · simp [scanToken]
  · obtain ⟨hsingle, hdouble, hback⟩ := isWhitespace_ne_quote hc
    simp [scanToken, hsingle, hdouble, hback, hc]

theorem pushed_eq_some {ch : Char} {found : Option (Str × Str)} {token rest : Str} :
    (found.map fun (token, rest) => (ch :: token, rest)) = some (token, rest) ↔
      ∃ more, found = some (more, rest) ∧ token = ch :: more := by
  cases found with
  | none => simp
  | some found =>
    obtain ⟨more, left⟩ := found
    simp only [Option.map_some, Option.some.injEq, Prod.mk.injEq]
    constructor
    · intro ⟨htoken, hleft⟩
      exact ⟨more, ⟨rfl, hleft⟩, htoken.symm⟩
    · intro ⟨_, ⟨hmore, hleft⟩, htoken⟩
      exact ⟨by rw [htoken, hmore], hleft⟩

/-- A token is the same whatever follows it, and what is left grows by that. -/
theorem scanToken_append {t : Str} (ht : Breaks t) {quote : Option Char} {escaped : Bool} {s : Str} :
    ∀ {token rest : Str}, scanToken quote escaped s = some (token, rest) →
      ∃ rest', scanToken quote escaped (s ++ t) = some (token, rest') ∧ (rest ≠ [] → rest' = rest ++ t) := by
  induction quote, escaped, s using scanToken.induct with
  | case1 quote escaped h =>
    intro token rest hs
    simp [scanToken, h] at hs
  | case2 quote escaped h =>
    intro token rest hs
    obtain ⟨rfl, rfl⟩ : quote = none ∧ escaped = false := by
      simpa [Option.not_isSome_iff_eq_none, and_comm] using h
    obtain ⟨rfl, rfl⟩ : token = [] ∧ rest = [] := by simpa [scanToken, eq_comm] using hs
    exact ⟨t.tail, scanToken_breaks ht, fun hne => absurd rfl hne⟩
  | case3 quote ch chars ih =>
    intro token rest hs
    rw [scanToken, pushed_eq_some] at hs
    obtain ⟨more, hmore, rfl⟩ := hs
    obtain ⟨rest', hrest, hleft⟩ := ih hmore
    exact ⟨rest', by rw [List.cons_append, scanToken, hrest]; rfl, hleft⟩
  | case4 quote ch chars h ih =>
    intro token rest hs
    simp only [scanToken, if_pos h] at hs
    obtain ⟨rest', hrest, hleft⟩ := ih hs
    exact ⟨rest', by simp only [List.cons_append, scanToken, if_pos h, hrest], hleft⟩
  | case5 chars q h ih =>
    intro token rest hs
    simp only [scanToken, if_neg h, ite_true] at hs
    obtain ⟨rest', hrest, hleft⟩ := ih hs
    exact ⟨rest', by simp only [List.cons_append, scanToken, if_neg h, ite_true, hrest], hleft⟩
  | case6 ch chars q h hq ih =>
    intro token rest hs
    simp only [scanToken, if_neg h, if_neg hq, pushed_eq_some] at hs
    obtain ⟨more, hmore, rfl⟩ := hs
    obtain ⟨rest', hrest, hleft⟩ := ih hmore
    exact ⟨rest', by simp only [List.cons_append, scanToken, if_neg h, if_neg hq, hrest, Option.map_some], hleft⟩
  | case7 ch chars hq h ih =>
    intro token rest hs
    simp only [scanToken, if_neg h, if_pos hq] at hs
    obtain ⟨rest', hrest, hleft⟩ := ih hs
    exact ⟨rest', by simp only [List.cons_append, scanToken, if_neg h, if_pos hq, hrest], hleft⟩
  | case8 ch chars hq hspace h =>
    intro token rest hs
    simp only [scanToken, if_neg h, if_neg hq, if_pos hspace, Option.some.injEq, Prod.mk.injEq] at hs
    obtain ⟨rfl, rfl⟩ := hs
    exact ⟨chars ++ t, by simp only [List.cons_append, scanToken, if_neg h, if_neg hq, if_pos hspace], fun _ => rfl⟩
  | case9 ch chars hq hspace h ih =>
    intro token rest hs
    simp only [scanToken, if_neg h, if_neg hq, if_neg hspace, pushed_eq_some] at hs
    obtain ⟨more, hmore, rfl⟩ := hs
    obtain ⟨rest', hrest, hleft⟩ := ih hmore
    refine ⟨rest', ?_, hleft⟩
    simp only [List.cons_append, scanToken, if_neg h, if_neg hq, if_neg hspace, hrest, Option.map_some]

/-! ## Tokens -/

theorem splitSudoCommandPrefixTokens_nil {n : Nat} : splitSudoCommandPrefixTokens [] n = some [] := by
  cases n <;> rfl

theorem dropWhile_append_of_ne_nil {p : Char → Bool} {t : Str} : ∀ {s : Str}, s.dropWhile p ≠ [] →
    (s ++ t).dropWhile p = s.dropWhile p ++ t
  | [], h => absurd rfl h
  | c :: s, h => by
    by_cases hc : p c = true
    · simp only [List.dropWhile_cons_of_pos hc, List.cons_append] at h ⊢
      exact dropWhile_append_of_ne_nil h
    · simp [hc]

/-- The tokens in front are the same whatever follows them. -/
theorem splitSudoCommandPrefixTokens_append {t : Str} (ht : Breaks t) : ∀ {n : Nat} {s : Str} {tokens : List Str},
    splitSudoCommandPrefixTokens s n = some tokens → tokens.length = n →
      splitSudoCommandPrefixTokens (s ++ t) n = some tokens
  | 0, s, tokens, h, _ => h
  | n + 1, s, tokens, h, hlen => by
    obtain ⟨-, rfl⟩ | ⟨hs, token, rest, more, hscan, hmore, rfl⟩ := splitSudoCommandPrefixTokens_succ.mp h
    · simp at hlen
    have hlen : more.length = n := by simpa using hlen
    obtain ⟨rest', hscan', hleft⟩ := scanToken_append ht hscan
    have hdrop := dropWhile_append_of_ne_nil (t := t) hs
    refine splitSudoCommandPrefixTokens_succ.mpr (.inr ⟨by simp [hdrop, hs], token, rest', more, ?_, ?_, rfl⟩)
    · rw [hdrop]
      exact hscan'
    · by_cases hrest : rest = []
      · -- nothing is left of `s`, so no further token is asked for
        rw [hrest, splitSudoCommandPrefixTokens_nil, Option.some.injEq] at hmore
        subst hmore
        obtain rfl : n = 0 := by simpa using hlen.symm
        rfl
      · rw [hleft hrest]
        exact splitSudoCommandPrefixTokens_append ht hmore hlen

/-- Asking for fewer tokens gives the first of them. -/
theorem splitSudoCommandPrefixTokens_take : ∀ {n m : Nat} {s : Str} {tokens : List Str}, m ≤ n →
    splitSudoCommandPrefixTokens s n = some tokens → splitSudoCommandPrefixTokens s m = some (tokens.take m)
  | _, 0, s, tokens, _, _ => rfl
  | 0, m + 1, s, tokens, hm, _ => by omega
  | n + 1, m + 1, s, tokens, hm, h => by
    obtain ⟨hs, rfl⟩ | ⟨hs, token, rest, more, hscan, hmore, rfl⟩ := splitSudoCommandPrefixTokens_succ.mp h
    · exact splitSudoCommandPrefixTokens_succ.mpr (.inl ⟨hs, rfl⟩)
    · exact splitSudoCommandPrefixTokens_succ.mpr (.inr ⟨hs, token, rest, more.take m, hscan,
        splitSudoCommandPrefixTokens_take (by omega) hmore, rfl⟩)

/-- `s` holds `n` tokens. -/
def HoldsTokens (s : Str) (n : Nat) : Prop := ∃ tokens ∈ splitSudoCommandPrefixTokens s n, tokens.length = n

instance {s : Str} {n : Nat} : Decidable (HoldsTokens s n) :=
  inferInstanceAs (Decidable (∃ tokens ∈ splitSudoCommandPrefixTokens s n, tokens.length = n))

/-- The part of `s` up to the end of its `n`-th token: the shortest that holds
`n` tokens and is followed by a break. -/
def throughTokens (s : Str) (n : Nat) : Option Str :=
  s.inits.find? fun p => decide (HoldsTokens p n ∧ Breaks (s.drop p.length))

/-- How many tokens the delegated command takes: two where the first is the program's own name. -/
def tokensRead (s : Str) : Nat :=
  match splitSudoCommandPrefixTokens s 1 with
  | some [first] => if isWrapper (basename first) && !first.isEmpty then 2 else 1
  | _ => 1

theorem throughTokens_some {s p : Str} {n : Nat} (h : throughTokens s n = some p) :
    HoldsTokens p n ∧ ∃ t, s = p ++ t ∧ Breaks t := by
  have hp : HoldsTokens p n ∧ Breaks (s.drop p.length) := by simpa using List.find?_some (p := _) h
  obtain ⟨t, rfl⟩ := (List.mem_inits _ _).mp (List.mem_of_find?_eq_some h)
  exact ⟨hp.1, t, rfl, by simpa using hp.2⟩

theorem exists_throughTokens {s : Str} {n : Nat} (h : HoldsTokens s n) : ∃ p, throughTokens s n = some p := by
  apply Option.isSome_iff_exists.mp
  rw [throughTokens, List.find?_isSome]
  exact ⟨s, (List.mem_inits _ _).mpr List.prefix_rfl, decide_eq_true ⟨h, by simpa using breaks_nil⟩⟩

theorem tokensRead_pos {s : Str} : 0 < tokensRead s := by
  unfold tokensRead
  split
  · split <;> omega
  · omega

/-- The delegated command is read from as many tokens as it takes. -/
theorem delegatedCommandToken_congr {s s' : Str}
    (h1 : splitSudoCommandPrefixTokens s 1 = splitSudoCommandPrefixTokens s' 1)
    (h2 : tokensRead s = 2 → splitSudoCommandPrefixTokens s 2 = splitSudoCommandPrefixTokens s' 2) :
    delegatedCommandTokenFromSudoCommand s = delegatedCommandTokenFromSudoCommand s' := by
  unfold delegatedCommandTokenFromSudoCommand
  rw [← h1]
  cases hfirst : splitSudoCommandPrefixTokens s 1 with
  | none => rfl
  | some firstTokens =>
    dsimp only
    by_cases hwrap : (isWrapper (basename (firstTokens.head?.getD [])) && !(firstTokens.head?.getD []).isEmpty) = true
    · have hread : tokensRead s = 2 := by
        have hlen := splitSudoCommandPrefixTokens_length hfirst
        match firstTokens, hlen with
        | [], _ => simp at hwrap
        | [first], _ => simpa [tokensRead, hfirst] using hwrap
        | _ :: _ :: _, hlen => simp at hlen
      rw [if_pos hwrap, if_pos hwrap, h2 hread]
    · rw [if_neg hwrap, if_neg hwrap]

/-- **The tokens in front do not depend on what follows them**: whatever is
appended after a break, they are read the same; fewer of them are the first of
them; and the delegated command is read from the text up to its end. -/
theorem splitSudoCommandPrefixTokens_stable {s : Str} {n : Nat} {tokens : List Str}
    (h : splitSudoCommandPrefixTokens s n = some tokens) (hlen : tokens.length = n) :
    (∀ t, Breaks t → splitSudoCommandPrefixTokens (s ++ t) n = some tokens) ∧
    (∀ m ≤ n, splitSudoCommandPrefixTokens s m = some (tokens.take m)) ∧
    (n = tokensRead s → ∃ p rest, s = p ++ rest ∧ throughTokens s n = some p ∧ ∀ t, Breaks t →
      delegatedCommandTokenFromSudoCommand (p ++ t) = delegatedCommandTokenFromSudoCommand s) := by
  refine ⟨fun t ht => splitSudoCommandPrefixTokens_append ht h hlen,
    fun m hm => splitSudoCommandPrefixTokens_take hm h, ?_⟩
  intro hn
  obtain ⟨p, hp⟩ := exists_throughTokens ⟨tokens, h, hlen⟩
  obtain ⟨⟨toks, htoks, hlen'⟩, rest, hs, hrest⟩ := throughTokens_some hp
  refine ⟨p, rest, hs, hp, fun t ht => ?_⟩
  -- `s` and `p ++ t` hold the tokens `p` holds
  have hsame : ∀ m ≤ n, splitSudoCommandPrefixTokens s m = splitSudoCommandPrefixTokens (p ++ t) m := by
    intro m hm
    rw [hs, splitSudoCommandPrefixTokens_take hm (splitSudoCommandPrefixTokens_append hrest htoks hlen'),
      splitSudoCommandPrefixTokens_take hm (splitSudoCommandPrefixTokens_append ht htoks hlen')]
  have hpos := tokensRead_pos (s := s)
  exact (delegatedCommandToken_congr (hsame 1 (by omega)) fun h2 => hsame 2 (by omega)).symm

theorem splitSudoCommandPrefixTokens_stable_apt :
    splitSudoCommandPrefixTokens ("secure-sudoers apt" ++ " 'unfinished") 2 =
        some (["secure-sudoers", "apt"] : List Str) ∧
      ∃ p rest : Str, ("secure-sudoers apt" : Str) = p ++ rest ∧
        throughTokens "secure-sudoers apt" 2 = some p ∧ ∀ t, Breaks t →
        delegatedCommandTokenFromSudoCommand (p ++ t) = delegatedCommandTokenFromSudoCommand "secure-sudoers apt" :=
  have h : splitSudoCommandPrefixTokens "secure-sudoers apt" 2 = some (["secure-sudoers", "apt"] : List Str) := by
    decide
  have hstable := splitSudoCommandPrefixTokens_stable h rfl
  ⟨hstable.1 " 'unfinished" (by decide), hstable.2.2 (by decide)⟩

end SecureSudoers
