import Asl.Proofs.Token.Reread
import Mathlib.Computability.Language

/-!
# The languages of the lexical rules

The lexical rules are declared as regular expressions: one for each keyword, boolean and symbol, and
one for each kind of literal, for names, blanks and comments. The lexer knows how far a rule reaches
instead, and reads keywords with the rule for words. How far a rule reaches is the length of the
longest word of its language at the front of the text.
-/
namespace Asl

open scoped Computability

def charIn (p : Char → Bool) : Language Char := {w | ∃ c, w = [c] ∧ p c = true}

def runOf (p : Char → Bool) : Language Char := charIn p * (charIn p)∗

def exactly (x : String) : Language Char := {w | w = x.toList}

/-- What a literal has between its quotes: characters other than the quote, the backslash and the
line feed, and a backslash with any character other than the line feed. -/
def unitOf (quote : Char) : Language Char :=
  charIn (fun c => c != quote && c != '\\' && c != '\n') + exactly "\\" * charIn (· != '\n')

theorem mem_charIn {p : Char → Bool} {w : List Char} :
    w ∈ charIn p ↔ ∃ c, w = [c] ∧ p c = true := Iff.rfl

theorem mem_exactly {x : String} {w : List Char} : w ∈ exactly x ↔ w = x.toList := Iff.rfl

theorem mem_star_charIn {p : Char → Bool} {w : List Char} :
    w ∈ (charIn p)∗ ↔ ∀ c ∈ w, p c = true := by
  rw [Language.mem_kstar]
  constructor
  · rintro ⟨ws, rfl, hws⟩ c hc
    obtain ⟨v, hv, hcv⟩ := List.mem_flatten.1 hc
    obtain ⟨d, rfl, hd⟩ := hws v hv
    rw [List.mem_singleton.1 hcv]
    exact hd
  · intro hw
    refine ⟨w.map ([·]), ?_, ?_⟩
    · rw [← List.flatMap_def, List.flatMap_singleton']
    · intro v hv
      obtain ⟨c, hc, rfl⟩ := List.mem_map.1 hv
      exact ⟨c, rfl, hw c hc⟩

theorem cons_mem_mul_charIn {p : Char → Bool} {l : Language Char} {w : List Char} :
    w ∈ charIn p * l ↔ ∃ c cs, w = c :: cs ∧ p c = true ∧ cs ∈ l := by
  rw [Language.mem_mul]
  constructor
  · rintro ⟨_, ⟨c, rfl, hc⟩, cs, hcs, rfl⟩
    exact ⟨c, cs, rfl, hc, hcs⟩
  · rintro ⟨c, cs, rfl, hc, hcs⟩
    exact ⟨[c], ⟨c, rfl, hc⟩, cs, hcs, rfl⟩

theorem mem_runOf {p : Char → Bool} {w : List Char} :
    w ∈ runOf p ↔ w ≠ [] ∧ ∀ c ∈ w, p c = true := by
  rw [runOf, cons_mem_mul_charIn]
  constructor
  · rintro ⟨c, cs, rfl, hc, hcs⟩
    exact ⟨List.cons_ne_nil c cs, List.forall_mem_cons.2 ⟨hc, mem_star_charIn.1 hcs⟩⟩
  · rintro ⟨hne, hw⟩
    obtain ⟨c, cs, rfl⟩ := List.exists_cons_of_ne_nil hne
    obtain ⟨hc, hcs⟩ := List.forall_mem_cons.1 hw
    exact ⟨c, cs, rfl, hc, mem_star_charIn.2 hcs⟩

theorem mem_exactly_mul {x : String} {l : Language Char} {w : List Char} :
    w ∈ exactly x * l ↔ ∃ v ∈ l, w = x.toList ++ v := by
  rw [Language.mem_mul]
  constructor
  · rintro ⟨_, rfl, v, hv, rfl⟩
    exact ⟨v, hv, rfl⟩
  · rintro ⟨v, hv, rfl⟩
    exact ⟨_, rfl, v, hv, rfl⟩

theorem mem_mul_exactly {x : String} {l : Language Char} {w : List Char} :
    w ∈ l * exactly x ↔ ∃ v ∈ l, w = v ++ x.toList := by
  rw [Language.mem_mul]
  constructor
  · rintro ⟨v, hv, _, rfl, rfl⟩
    exact ⟨v, hv, rfl⟩
  · rintro ⟨v, hv, rfl⟩
    exact ⟨v, hv, _, rfl, rfl⟩

theorem mem_unitOf {quote : Char} {w : List Char} :
    w ∈ unitOf quote ↔ (∃ c, w = [c] ∧ c ≠ quote ∧ c ≠ '\\' ∧ c ≠ '\n') ∨
      ∃ c, w = ['\\', c] ∧ c ≠ '\n' := by
  have hescape : "\\".toList = ['\\'] := rfl
  rw [unitOf, Language.mem_add, mem_exactly_mul, hescape]
  simp only [mem_charIn, Bool.and_eq_true, bne_iff_ne, and_assoc]
  constructor
  · rintro (h | ⟨_, ⟨c, rfl, hc⟩, rfl⟩)
    · exact Or.inl h
    · exact Or.inr ⟨c, rfl, hc⟩
  · rintro (h | ⟨c, rfl, hc⟩)
    · exact Or.inl h
    · exact Or.inr ⟨[c], ⟨c, rfl, hc⟩, rfl⟩

theorem mem_unitOf_quote {w : List Char} : w ∈ unitOf '\'' ↔ RawChar w := by
  rw [mem_unitOf]
  constructor
  · rintro (⟨c, rfl, hquote, hescape, hline⟩ | ⟨c, rfl, hline⟩)
    · exact .plain hquote hescape hline
    · exact .escaped hline
  · rintro (⟨hquote, hescape, hline⟩ | hline)
    · exact Or.inl ⟨_, rfl, hquote, hescape, hline⟩
    · exact Or.inr ⟨_, rfl, hline⟩

theorem rawText_of_unit {w : List Char} (h : w ∈ unitOf '"') : RawText w := by
  rcases mem_unitOf.1 h with ⟨c, rfl, hquote, hescape, hline⟩ | ⟨c, rfl, hline⟩
  · simp [RawText, unitsLength, hquote, hescape, hline]
  · simp [RawText, unitsLength, hline]

theorem mem_star_unitOf {w : List Char} : w ∈ (unitOf '"')∗ ↔ RawText w := by
  constructor
  · intro h
    obtain ⟨ws, rfl, hws⟩ := Language.mem_kstar.1 h
    clear h
    induction ws with
    | nil => rfl
    | cons v ws ih =>
      obtain ⟨hv, hws⟩ := List.forall_mem_cons.1 hws
      exact (rawText_of_unit hv).append (ih hws)
  · intro h
    have hcons {v w : List Char} (hv : v ∈ unitOf '"') (hw : w ∈ (unitOf '"')∗) :
        v ++ w ∈ (unitOf '"')∗ :=
      Set.mem_of_mem_of_subset (Language.append_mem_mul hv hw)
          (mul_kstar_le_kstar (a := unitOf '"'))
    unfold RawText at h
    -- The units are the steps of the recursion that counts them.
    fun_induction unitsLength w with
    | case1 => exact Language.nil_mem_kstar _
    | case2 => cases h
    | case3 => cases h
    | case4 => cases h
    | case5 d ds hd hplain ih =>
      have hunit : ['\\', d] ∈ unitOf '"' := mem_unitOf.2 (Or.inr ⟨d, rfl, hd⟩)
      have hds : unitsLength ds = ds.length := by
        simp only [List.length_cons] at h
        omega
      exact hcons hunit (ih hds)
    | case6 c cs hplain hescape ih =>
      simp only [Bool.or_eq_true, decide_eq_true_eq, not_or] at hplain
      obtain ⟨hquote, hline⟩ := hplain
      have hunit : [c] ∈ unitOf '"' := mem_unitOf.2 (Or.inl ⟨c, rfl, hquote, hescape, hline⟩)
      have hcs : unitsLength cs = cs.length := by
        simp only [List.length_cons] at h
        omega
      exact hcons hunit (ih hcs)

inductive Pattern
  | blank | comment
  | bool (b : Bool) | keyword (k : Keyword) | symbol (s : Symbol)
  | integer | decimal | character | text | identifier
deriving DecidableEq, Repr

namespace Pattern

def language : Pattern → Language Char
  | .blank => runOf isBlank
  | .comment => exactly "//" * (charIn (· != '\n'))∗
  | .bool b => exactly (if b then "true" else "false")
  | .keyword k => exactly k.spelling
  | .symbol s => exactly s.spelling
  | .integer => runOf isDigit
  | .decimal => runOf isDigit * (exactly "." * runOf isDigit)
  | .character => exactly "'" * (unitOf '\'' * exactly "'")
  | .text => exactly "\"" * ((unitOf '"')∗ * exactly "\"")
  | .identifier => charIn isLetter * (charIn isWordChar)∗

def isSkipped : Pattern → Bool
  | .blank | .comment => true
  | _ => false

/-- The rule of the lexer that reads a declared rule. -/
def rule : Pattern → Rule
  | .blank => .blank
  | .comment => .comment
  | .symbol s => .symbol s
  | .integer => .integer
  | .decimal => .decimal
  | .character => .character
  | .text => .text
  | .bool _ | .keyword _ | .identifier => .word

theorem isSkipped_rule (p : Pattern) : p.rule.isSkipped = p.isSkipped := by cases p <;> rfl

theorem mem_comment {w : List Char} :
    w ∈ comment.language ↔ ∃ cs, w = '/' :: '/' :: cs ∧ ∀ c ∈ cs, (c != '\n') = true := by
  have hslashes : "//".toList = ['/', '/'] := rfl
  rw [language, mem_exactly_mul, hslashes]
  simp only [mem_star_charIn]
  constructor
  · rintro ⟨cs, hcs, rfl⟩
    exact ⟨cs, rfl, hcs⟩
  · rintro ⟨cs, rfl, hcs⟩
    exact ⟨cs, hcs, rfl⟩

theorem mem_decimal {w : List Char} :
    w ∈ decimal.language ↔ ∃ whole fraction, w = whole ++ '.' :: fraction ∧
      (whole ≠ [] ∧ ∀ c ∈ whole, isDigit c = true) ∧
      fraction ≠ [] ∧ ∀ c ∈ fraction, isDigit c = true := by
  have hpoint : ".".toList = ['.'] := rfl
  rw [language, Language.mem_mul]
  constructor
  · rintro ⟨whole, hwhole, tail, htail, rfl⟩
    obtain ⟨fraction, hfraction, rfl⟩ := mem_exactly_mul.1 htail
    rw [hpoint]
    exact ⟨whole, fraction, rfl, mem_runOf.1 hwhole, mem_runOf.1 hfraction⟩
  · rintro ⟨whole, fraction, rfl, hwhole, hfraction⟩
    exact ⟨whole, mem_runOf.2 hwhole, '.' :: fraction,
      mem_exactly_mul.2 ⟨fraction, mem_runOf.2 hfraction, by rw [hpoint]; rfl⟩, rfl⟩

theorem mem_character {w : List Char} :
    w ∈ character.language ↔ ∃ raw, RawChar raw ∧ w = '\'' :: (raw ++ ['\'']) := by
  have hquote : "'".toList = ['\''] := rfl
  rw [language, mem_exactly_mul, hquote]
  constructor
  · rintro ⟨v, hv, rfl⟩
    obtain ⟨raw, hraw, rfl⟩ := mem_mul_exactly.1 hv
    rw [hquote]
    exact ⟨raw, mem_unitOf_quote.1 hraw, rfl⟩
  · rintro ⟨raw, hraw, rfl⟩
    exact ⟨raw ++ ['\''], mem_mul_exactly.2 ⟨raw, mem_unitOf_quote.2 hraw, by rw [hquote]⟩, rfl⟩

theorem mem_text {w : List Char} :
    w ∈ text.language ↔ ∃ raw, RawText raw ∧ w = '"' :: (raw ++ ['"']) := by
  have hquote : "\"".toList = ['"'] := rfl
  rw [language, mem_exactly_mul, hquote]
  constructor
  · rintro ⟨v, hv, rfl⟩
    obtain ⟨raw, hraw, rfl⟩ := mem_mul_exactly.1 hv
    rw [hquote]
    exact ⟨raw, mem_star_unitOf.1 hraw, rfl⟩
  · rintro ⟨raw, hraw, rfl⟩
    exact ⟨raw ++ ['"'], mem_mul_exactly.2 ⟨raw, mem_star_unitOf.2 hraw, by rw [hquote]⟩, rfl⟩

theorem mem_identifier {w : List Char} :
    w ∈ identifier.language ↔ isIdentifier (String.ofList w) = true := by
  rw [language, cons_mem_mul_charIn]
  simp only [mem_star_charIn]
  constructor
  · rintro ⟨c, cs, rfl, hc, hcs⟩
    rw [isIdentifier, String.toList_ofList]
    exact Bool.and_eq_true_iff.2 ⟨hc, List.all_eq_true.2 hcs⟩
  · intro h
    obtain ⟨c, cs, hw, hc, hcs⟩ := exists_of_isIdentifier h
    rw [String.toList_ofList] at hw
    exact ⟨c, cs, hw, hc, hcs⟩

end Pattern

namespace Rule

/-- The declared rule with all the words of a rule of the lexer. -/
def pattern : Rule → Pattern
  | .blank => .blank
  | .comment => .comment
  | .word => .identifier
  | .integer => .integer
  | .decimal => .decimal
  | .character => .character
  | .text => .text
  | .symbol s => .symbol s

theorem rule_pattern (r : Rule) : r.pattern.rule = r := by cases r <;> rfl

/-- The words of a declared rule are words of the rule of the lexer that reads it: a keyword or a
boolean has the form of a name. -/
theorem mem_language_rule {p : Pattern} {w : List Char} (h : w ∈ p.language) :
    w ∈ p.rule.pattern.language := by
  cases p with
  | bool b =>
    rw [mem_exactly.1 h]
    cases b <;> exact Pattern.mem_identifier.2 (by decide)
  | keyword k =>
    rw [mem_exactly.1 h]
    apply Pattern.mem_identifier.2
    rw [String.ofList_toList]
    exact k.isIdentifier_spelling
  | _ => exact h

theorem length_le_runLength {p : Char → Bool} {w : List Char} (h : ∀ c ∈ w, p c = true)
    (rest : List Char) : w.length ≤ runLength p (w ++ rest) := by
  rw [runLength, List.takeWhile_append_of_pos h, List.length_append]
  exact Nat.le_add_right _ _

theorem exists_of_runLength (p : Char → Bool) (cs : List Char) :
    ∃ w rest, cs = w ++ rest ∧ (∀ c ∈ w, p c = true) ∧ runLength p cs = w.length :=
  ⟨cs.takeWhile p, cs.dropWhile p, List.takeWhile_append_dropWhile.symm,
    List.all_eq_true.1 List.all_takeWhile, rfl⟩

theorem length_le_reach_decimal {w : List Char} (h : w ∈ decimal.pattern.language)
    (rest : List Char) : w.length ≤ decimal.reach (w ++ rest) := by
  obtain ⟨whole, fraction, rfl, ⟨hne, hwhole⟩, hne', hfraction⟩ := Pattern.mem_decimal.1 h
  have hpoint : ∀ d, ('.' :: (fraction ++ rest)).head? = some d → isDigit d = false := by
    rintro _ ⟨⟩
    decide
  have hrun := runLength_append hwhole hpoint
  have hle := length_le_runLength hfraction rest
  have hlength := List.length_pos_iff.2 hne
  have hlength' := List.length_pos_iff.2 hne'
  rw [List.append_assoc, List.cons_append]
  simp only [reach, hrun, List.drop_left]
  rw [if_neg (by simp only [Bool.or_eq_true, decide_eq_true_eq]; omega), List.length_append,
    List.length_cons]
  omega

theorem Reads.length_le {r : Rule} {k : TokenKind} {rest w : List Char} (h : r.Reads k rest)
    (hw : k.spelling.toList = w) : w.length ≤ r.reach (w ++ rest) := by
  rw [← hw]
  exact Nat.le_of_eq h.reach.symm

theorem length_le_reach {r : Rule} {w : List Char} (h : w ∈ r.pattern.language)
    (rest : List Char) : w.length ≤ r.reach (w ++ rest) := by
  cases r with
  | blank => exact length_le_runLength (mem_runOf.1 h).2 rest
  | integer => exact length_le_runLength (mem_runOf.1 h).2 rest
  | comment =>
    obtain ⟨cs, rfl, hcs⟩ := Pattern.mem_comment.1 h
    have hle := length_le_runLength hcs rest
    simp only [reach, List.cons_append, List.length_cons]
    omega
  | word =>
    obtain ⟨c, cs, rfl, hc, hcs⟩ := cons_mem_mul_charIn.1 h
    have hle := length_le_runLength (mem_star_charIn.1 hcs) rest
    rw [List.cons_append, reach, if_pos hc, List.length_cons]
    omega
  | decimal => exact length_le_reach_decimal h rest
  | character =>
    obtain ⟨raw, hraw, rfl⟩ := Pattern.mem_character.1 h
    have hread : Rule.character.Reads (.char (String.ofList raw)) rest :=
      reads_character (by rwa [String.toList_ofList]) rest
    exact hread.length_le (by simp [TokenKind.spelling])
  | text =>
    obtain ⟨raw, hraw, rfl⟩ := Pattern.mem_text.1 h
    have hread : Rule.text.Reads (.text (String.ofList raw)) rest :=
      reads_text (by rwa [String.toList_ofList]) rest
    exact hread.length_le (by simp [TokenKind.spelling])
  | symbol s =>
    rw [mem_exactly.1 h]
    have hprefix : s.spelling.toList.isPrefixOf (s.spelling.toList ++ rest) = true :=
      List.isPrefixOf_iff_prefix.2 (List.prefix_append _ _)
    rw [reach, if_pos hprefix, String.length_toList]

theorem exists_of_reach_decimal {cs : List Char} (h : 0 < decimal.reach cs) :
    ∃ w rest, cs = w ++ rest ∧ w ∈ decimal.pattern.language ∧ decimal.reach cs = w.length := by
  obtain ⟨whole, rest, rfl, hwhole, hlength⟩ := exists_of_runLength isDigit cs
  simp only [reach, hlength, List.drop_left] at h ⊢
  split at h
  · rename_i ds
    obtain ⟨fraction, rest, rfl, hfraction, hlength'⟩ := exists_of_runLength isDigit ds
    rw [hlength'] at h ⊢
    split at h
    · cases h
    · rename_i hne
      rw [if_neg hne]
      simp only [Bool.or_eq_true, decide_eq_true_eq, not_or] at hne
      refine ⟨whole ++ '.' :: fraction, rest, by rw [List.append_assoc, List.cons_append],
        Pattern.mem_decimal.2 ⟨whole, fraction, rfl, ⟨?_, hwhole⟩, ?_, hfraction⟩, ?_⟩
      · exact fun hnil => hne.1 (by rw [hnil, List.length_nil])
      · exact fun hnil => hne.2 (by rw [hnil, List.length_nil])
      · rw [List.length_append, List.length_cons]
        omega
  · cases h

theorem exists_of_reach {r : Rule} {cs : List Char} (h : 0 < r.reach cs) :
    ∃ w rest, cs = w ++ rest ∧ w ∈ r.pattern.language ∧ r.reach cs = w.length := by
  have hrun {p : Char → Bool} (hpos : 0 < runLength p cs) :
      ∃ w rest, cs = w ++ rest ∧ w ∈ runOf p ∧ runLength p cs = w.length := by
    obtain ⟨w, rest, hcs, hw, hlength⟩ := exists_of_runLength p cs
    have hne : w ≠ [] := List.length_pos_iff.1 (hlength ▸ hpos)
    exact ⟨w, rest, hcs, mem_runOf.2 ⟨hne, hw⟩, hlength⟩
  cases r with
  | blank => exact hrun h
  | integer => exact hrun h
  | comment =>
    unfold reach at h ⊢
    split at h <;> first | contradiction | skip
    rename_i cs _
    obtain ⟨w, rest, rfl, hw, hlength⟩ := exists_of_runLength (· != '\n') cs
    refine ⟨'/' :: '/' :: w, rest, rfl, Pattern.mem_comment.2 ⟨w, rfl, hw⟩, ?_⟩
    simp only [hlength, List.length_cons]
    omega
  | word =>
    cases cs with
    | nil => cases h
    | cons c cs =>
      by_cases hc : isLetter c = true
      · obtain ⟨w, rest, rfl, hw, hlength⟩ := exists_of_runLength isWordChar cs
        refine ⟨c :: w, rest, rfl, cons_mem_mul_charIn.2 ⟨c, w, rfl, hc, mem_star_charIn.2 hw⟩, ?_⟩
        rw [reach, if_pos hc, hlength, List.length_cons, Nat.add_comm]
      · rw [reach, if_neg hc] at h
        cases h
  | decimal => exact exists_of_reach_decimal h
  | character =>
    obtain ⟨raw, rest, hraw, rfl, hlength⟩ := exists_of_character h
    refine ⟨'\'' :: (raw ++ ['\'']), rest, by simp, Pattern.mem_character.2 ⟨raw, hraw, rfl⟩, ?_⟩
    rw [hlength, List.length_cons, List.length_append, List.length_singleton]
  | text =>
    obtain ⟨raw, rest, hraw, rfl, hlength⟩ := exists_of_text h
    refine ⟨'"' :: (raw ++ ['"']), rest, by simp, Pattern.mem_text.2 ⟨raw, hraw, rfl⟩, ?_⟩
    rw [hlength, List.length_cons, List.length_append, List.length_singleton]
  | symbol s =>
    simp only [reach] at h ⊢
    split at h
    · rename_i hprefix
      obtain ⟨rest, hrest⟩ := List.isPrefixOf_iff_prefix.1 hprefix
      exact ⟨s.spelling.toList, rest, hrest.symm, mem_exactly.2 rfl,
        by rw [if_pos hprefix, String.length_toList]⟩
    · cases h

end Rule

end Asl
