import Asl.Proofs.Token.Written

/-!
# Reading spellings back

The lexer takes the rule that reaches farthest, so a spelling is read back as its token if the next
character cannot lengthen it: a letter would lengthen a word, a digit a number, and a second
character some of the symbols. Blanks between spellings are passed over.
-/
namespace Asl

theorem runLength_append {p : Char → Bool} {cs rest : List Char} (h : ∀ c ∈ cs, p c = true)
    (hrest : ∀ c, rest.head? = some c → p c = false) :
    runLength p (cs ++ rest) = cs.length := by
  have hstop : rest.takeWhile p = [] := by
    cases rest with
    | nil => rfl
    | cons c rest => rw [List.takeWhile_cons, hrest c rfl]; rfl
  rw [runLength, List.takeWhile_append_of_pos h, hstop, List.append_nil]

namespace Rule

theorem mem_of_farthest {cs : List Char} {rules : List Rule} {r : Rule} {n : Nat}
    (h : farthest cs rules = some (r, n)) : r ∈ rules := by
  induction rules generalizing r n with
  | nil => cases h
  | cons s rules ih =>
    simp only [farthest] at h
    split at h
    · rename_i best m hm
      split at h
      · cases h
        exact List.mem_cons_self
      · cases h
        exact List.mem_cons_of_mem _ (ih hm)
    · split at h
      · cases h
      · cases h
        exact List.mem_cons_self

theorem farthest_eq {cs : List Char} {rules : List Rule} {r : Rule} (hr : r ∈ rules)
    (hpos : 0 < r.reach cs) (hmax : ∀ r' ∈ rules, r' ≠ r → r'.reach cs < r.reach cs) :
    farthest cs rules = some (r, r.reach cs) := by
  induction rules with
  | nil => cases hr
  | cons s rules ih =>
    obtain ⟨hs, hmax⟩ := List.forall_mem_cons.1 hmax
    simp only [farthest]
    by_cases hsr : s = r
    · subst hsr
      cases hrest : farthest cs rules with
      | none => simp only [Nat.ne_of_gt hpos, if_false]
      | some best =>
        obtain ⟨best, n⟩ := best
        have hn := eq_reach_of_farthest hrest
        have hle : n ≤ s.reach cs := by
          by_cases hbest : best = s
          · exact Nat.le_of_eq (by rw [hn, hbest])
          · have hlt := hmax best (mem_of_farthest hrest) hbest
            omega
        have hne : s.reach cs ≠ 0 := Nat.ne_of_gt hpos
        simp [hle, hne]
    · have hmem : r ∈ rules := by
        rcases List.mem_cons.1 hr with h | h
        · exact absurd h.symm hsr
        · exact h
      rw [ih hmem hmax]
      have hlt : ¬r.reach cs ≤ s.reach cs := Nat.not_le.2 (hs hsr)
      simp [hlt]

/-- The rules that can match a text are told by its first character. -/
def starts (c : Char) : Rule → Bool
  | .blank => isBlank c
  | .comment => c = '/'
  | .word => isLetter c
  | .integer | .decimal => isDigit c
  | .character => c = '\''
  | .text => c = '"'
  | .symbol s => s.spelling.toList.head? = some c

theorem runLength_cons_pos {p : Char → Bool} {c : Char} {cs : List Char}
    (h : 0 < runLength p (c :: cs)) : p c = true := by
  unfold runLength at h
  rw [List.takeWhile_cons] at h
  split at h
  · assumption
  · cases h

theorem starts_of_reach {r : Rule} {c : Char} {cs : List Char} (h : 0 < r.reach (c :: cs)) :
    r.starts c = true := by
  cases r with
  | blank => exact runLength_cons_pos h
  | comment =>
    unfold reach at h
    split at h <;> first | contradiction | skip
    rename_i heq
    cases heq
    rfl
  | word =>
    simp only [reach] at h
    split at h
    · assumption
    · cases h
  | integer => exact runLength_cons_pos h
  | decimal =>
    simp only [reach] at h
    split at h
    · split at h
      · cases h
      · rename_i hne
        simp only [Bool.or_eq_true, decide_eq_true_eq, not_or] at hne
        exact runLength_cons_pos (Nat.pos_of_ne_zero hne.1)
    · cases h
  | character =>
    obtain ⟨raw, rest, -, heq, -⟩ := exists_of_character h
    cases heq
    rfl
  | text =>
    obtain ⟨raw, rest, -, heq, -⟩ := exists_of_text h
    cases heq
    rfl
  | symbol s =>
    simp only [reach] at h
    split at h
    · rename_i hprefix
      have hp : s.spelling.toList <+: c :: cs := List.isPrefixOf_iff_prefix.1 hprefix
      cases hs : s.spelling.toList with
      | nil => cases s <;> cases hs
      | cons d ds =>
        rw [hs] at hp
        simp only [starts, hs, List.head?_cons, (List.cons_prefix_cons.1 hp).1, decide_true]
    · cases h

end Rule

/-- A character that would lengthen a token of a kind. -/
def TokenKind.grows (d : Char) : TokenKind → Bool
  | .keyword _ | .bool _ | .ident _ => isWordChar d
  | .int _ => isDigit d || d == '.'
  | .float _ => isDigit d
  | .symbol .colon | .symbol .less | .symbol .greater => d == '='
  | .symbol .slash => d == '/'
  | .symbol _ | .char _ | .text _ => false

/-- A rule that reaches just over the spelling of a kind, and no other rule as far. -/
structure Rule.Reads (r : Rule) (k : TokenKind) (rest : List Char) : Prop where
  reach : r.reach (k.spelling.toList ++ rest) = k.spelling.toList.length
  pos : 0 < k.spelling.toList.length
  others : ∀ r' : Rule, r' ≠ r →
    r'.reach (k.spelling.toList ++ rest) < k.spelling.toList.length
  kind : r.kind k.spelling.toList = .ok k
  token : r.isSkipped = false

namespace Symbol

theorem head_class (s : Symbol) {c : Char} (h : s.spelling.toList.head? = some c) :
    isLetter c = false ∧ isDigit c = false ∧ isBlank c = false ∧ c ≠ '\'' ∧ c ≠ '"' := by
  cases s <;> cases h <;> decide

theorem spelling_injective {s s' : Symbol} (h : s.spelling = s'.spelling) : s = s' := by
  have hall : ∀ s ∈ all, ∀ s' ∈ all, s.spelling = s'.spelling → s = s' := by decide +kernel
  exact hall s (mem_all s) s' (mem_all s') h

/-- Where one symbol begins another, the next character of the longer one is known. -/
theorem grows_of_longer {s s' : Symbol} {d : Char} {ds : List Char}
    (h : s'.spelling.toList = s.spelling.toList ++ d :: ds) :
    TokenKind.grows d (.symbol s) = true := by
  have hall : ∀ s ∈ all, ∀ s' ∈ all, s.spelling.toList.isPrefixOf s'.spelling.toList = true →
      ((s'.spelling.toList.drop s.spelling.toList.length).head?.all
        fun d => TokenKind.grows d (.symbol s)) = true := by decide +kernel
  have hprefix : s.spelling.toList.isPrefixOf s'.spelling.toList = true :=
    List.isPrefixOf_iff_prefix.2 ⟨d :: ds, h.symm⟩
  have hnext := hall s (mem_all s) s' (mem_all s') hprefix
  rw [h, List.drop_left] at hnext
  exact hnext

end Symbol

namespace Rule

theorem reach_lt_of_not_starts {r : Rule} {c : Char} {cs : List Char} {n : Nat} (hn : 0 < n)
    (h : ¬r.starts c = true) : r.reach (c :: cs) < n := by
  have hzero : ¬0 < r.reach (c :: cs) := fun hpos => h (starts_of_reach hpos)
  omega

theorem not_letter_of_digit {c : Char} (h : isDigit c = true) : isLetter c = false := by
  simp only [isDigit, isLetter, Bool.and_eq_true, decide_eq_true_eq, Char.le_def,
    UInt32.le_iff_toNat_le, Bool.or_eq_false_iff, Bool.and_eq_false_iff,
    decide_eq_false_iff_not] at h ⊢
  have h0 : ('0' : Char).val.toNat = 48 := rfl
  have h9 : ('9' : Char).val.toNat = 57 := rfl
  have ha : ('a' : Char).val.toNat = 97 := rfl
  have hA : ('A' : Char).val.toNat = 65 := rfl
  omega

theorem not_blank {c : Char} (h : isBlank c = true) : isLetter c = false ∧ isDigit c = false := by
  simp only [isBlank, Bool.or_eq_true, beq_iff_eq] at h
  rcases h with (((rfl | rfl) | rfl) | rfl) | rfl <;> decide

/-- What first characters have in common. No character has two classes. -/
inductive FirstClass
  | letter | digit | blank | quote | doubleQuote | other
deriving DecidableEq

def FirstClass.of (c : Char) : FirstClass :=
  if isLetter c then .letter
  else if isDigit c then .digit
  else if isBlank c then .blank
  else if c = '\'' then .quote
  else if c = '"' then .doubleQuote
  else .other

def firstClass : Rule → FirstClass
  | .blank => .blank
  | .word => .letter
  | .integer | .decimal => .digit
  | .character => .quote
  | .text => .doubleQuote
  | .comment | .symbol _ => .other

theorem firstClass_of_starts {r : Rule} {c : Char} (h : r.starts c = true) :
    FirstClass.of c = r.firstClass := by
  have hdigits (hc : isDigit c = true) : FirstClass.of c = .digit := by
    simp [FirstClass.of, not_letter_of_digit hc, hc]
  cases r with
  | word => exact if_pos h
  | integer => exact hdigits h
  | decimal => exact hdigits h
  | blank =>
    obtain ⟨hletter, hdigit⟩ := not_blank h
    have hblank : isBlank c = true := h
    simp [FirstClass.of, hletter, hdigit, hblank, firstClass]
  | comment =>
    cases of_decide_eq_true h
    rfl
  | character =>
    cases of_decide_eq_true h
    rfl
  | text =>
    cases of_decide_eq_true h
    rfl
  | symbol s =>
    obtain ⟨hletter, hdigit, hblank, hquote, hdouble⟩ := s.head_class (of_decide_eq_true h)
    simp [FirstClass.of, hletter, hdigit, hblank, hquote, hdouble, firstClass]

theorem firstClass_eq {r r' : Rule} {c : Char} (h : r.starts c = true) (h' : r'.starts c = true) :
    r.firstClass = r'.firstClass :=
  (firstClass_of_starts h).symm.trans (firstClass_of_starts h')

theorem starts_blank {r : Rule} {c : Char} (hc : isBlank c = true) (h : r.starts c = true) :
    r = .blank := by
  have hclass : r.firstClass = .blank := firstClass_eq h (show Rule.blank.starts c = true from hc)
  cases r <;> first | rfl | cases hclass

theorem starts_letter {r : Rule} {c : Char} (hc : isLetter c = true) (h : r.starts c = true) :
    r = .word := by
  have hclass : r.firstClass = .letter := firstClass_eq h (show Rule.word.starts c = true from hc)
  cases r <;> first | rfl | cases hclass

theorem starts_digit {r : Rule} {c : Char} (hc : isDigit c = true) (h : r.starts c = true) :
    r = .integer ∨ r = .decimal := by
  have hclass : r.firstClass = .digit :=
    firstClass_eq h (show Rule.integer.starts c = true from hc)
  cases r <;> first | exact Or.inl rfl | exact Or.inr rfl | cases hclass

theorem starts_quote {r : Rule} (h : r.starts '\'' = true) : r = .character := by
  have hclass : r.firstClass = .quote := (firstClass_of_starts h).symm
  cases r <;> first | rfl | cases hclass

theorem starts_doubleQuote {r : Rule} (h : r.starts '"' = true) : r = .text := by
  have hclass : r.firstClass = .doubleQuote := (firstClass_of_starts h).symm
  cases r <;> first | rfl | cases hclass

theorem starts_symbol {r : Rule} {s : Symbol} {c : Char} (hs : s.spelling.toList.head? = some c)
    (h : r.starts c = true) : (r = .comment ∧ s = .slash) ∨ ∃ s', r = .symbol s' := by
  have hclass : r.firstClass = .other :=
    firstClass_eq h (show (Rule.symbol s).starts c = true from decide_eq_true hs)
  cases r with
  | symbol s' => exact Or.inr ⟨s', rfl⟩
  | comment =>
    have hc : c = '/' := of_decide_eq_true h
    subst hc
    refine Or.inl ⟨rfl, ?_⟩
    cases s <;> first | rfl | cases hs
  | _ => cases hclass

theorem reads_word {k : TokenKind} {rest : List Char} {c : Char} {cs : List Char}
    (hk : k.spelling.toList = c :: cs) (hc : isLetter c = true)
    (hcs : ∀ d ∈ cs, isWordChar d = true) (hrest : ∀ d, rest.head? = some d → isWordChar d = false)
    (hkind : wordKind k.spelling.toList = k) : Rule.word.Reads k rest where
  reach := by
    rw [hk, List.cons_append, reach, if_pos hc, runLength_append hcs hrest, List.length_cons,
      Nat.add_comm]
  pos := by
    rw [hk]
    exact Nat.succ_pos _
  others := by
    intro r hr
    rw [hk]
    exact reach_lt_of_not_starts (Nat.succ_pos _) fun h => hr (starts_letter hc h)
  kind := congrArg Except.ok hkind
  token := rfl

theorem length_spelling_pos (s : Symbol) : 0 < s.spelling.toList.length := by cases s <;> decide

theorem reach_symbol_lt {s s' : Symbol} {rest : List Char} (hne : s' ≠ s)
    (hrest : ∀ d, rest.head? = some d → TokenKind.grows d (.symbol s) = false) :
    (Rule.symbol s').reach (s.spelling.toList ++ rest) < s.spelling.toList.length := by
  simp only [reach]
  split
  · rename_i hprefix
    have hlonger : s'.spelling.toList <+: s.spelling.toList ++ rest :=
      List.isPrefixOf_iff_prefix.1 hprefix
    rw [← String.length_toList]
    rcases List.prefix_or_prefix_of_prefix hlonger (List.prefix_append _ _) with h | h
    · refine Nat.lt_of_le_of_ne h.length_le fun hlength => hne ?_
      exact Symbol.spelling_injective (String.toList_injective (h.eq_of_length hlength))
    · obtain ⟨ds, hds⟩ := h
      cases ds with
      | nil =>
        rw [List.append_nil] at hds
        exact absurd (Symbol.spelling_injective (String.toList_injective hds.symm)) hne
      | cons d ds =>
        rw [← hds] at hlonger
        obtain ⟨more, hmore⟩ := (List.prefix_append_right_inj _).1 hlonger
        have hgrows := hrest d (by rw [← hmore]; rfl)
        rw [Symbol.grows_of_longer hds.symm] at hgrows
        cases hgrows
  · exact length_spelling_pos s

theorem reach_comment_lt {rest : List Char}
    (hrest : ∀ d, rest.head? = some d → TokenKind.grows d (.symbol .slash) = false) :
    Rule.comment.reach ('/' :: rest) < 1 := by
  cases rest with
  | nil => decide
  | cons d rest =>
    have hd : d ≠ '/' := by simpa [TokenKind.grows] using hrest d rfl
    unfold reach
    split <;> first | contradiction | skip
    · rename_i heq
      cases heq
      exact absurd rfl hd
    · decide

theorem reads_symbol {s : Symbol} {rest : List Char}
    (hrest : ∀ d, rest.head? = some d → TokenKind.grows d (.symbol s) = false) :
    (Rule.symbol s).Reads (.symbol s) rest where
  reach := by
    have hprefix : s.spelling.toList.isPrefixOf (s.spelling.toList ++ rest) = true :=
      List.isPrefixOf_iff_prefix.2 (List.prefix_append _ _)
    exact if_pos hprefix
  pos := length_spelling_pos s
  others := by
    intro r hr
    change r.reach (s.spelling.toList ++ rest) < s.spelling.toList.length
    obtain ⟨c, cs, hcs⟩ := List.exists_cons_of_length_pos (length_spelling_pos s)
    by_cases hstarts : r.starts c = true
    · obtain ⟨rfl, rfl⟩ | ⟨s', rfl⟩ := starts_symbol (by rw [hcs, List.head?_cons]) hstarts
      · exact reach_comment_lt hrest
      · exact reach_symbol_lt (fun h => hr (congrArg Rule.symbol h)) hrest
    · rw [hcs, List.cons_append]
      exact reach_lt_of_not_starts (Nat.succ_pos _) hstarts
  kind := rfl
  token := rfl

end Rule

end Asl
