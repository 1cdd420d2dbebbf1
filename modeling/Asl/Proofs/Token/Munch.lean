import Asl.Proofs.Binary64.Nearest
import Asl.Proofs.Token.Languages

/-!
# The longest word

At each place of a text the lexer takes the longest word that any declared rule matches; the rule
for names gives way to a keyword or a boolean with the same word. What the word stands for, or that
its number does not fit, is said here in terms of its declared rule alone.
-/
namespace Asl

namespace Pattern

/-- The longest word at the front of a text that any declared rule matches, and the rule that takes
it: where two rules match it, one of them is the rule for names, and the other one takes it. -/
structure Munches (p : Pattern) (w cs : List Char) : Prop where
  matched : w ∈ p.language
  front : w <+: cs
  longest : ∀ (p' : Pattern) (w' : List Char), w' ∈ p'.language → w' <+: cs →
    w'.length ≤ w.length
  first : ∀ p' : Pattern, w ∈ p'.language → p' = p ∨ p' = .identifier

theorem ne_nil_of_mem {p : Pattern} {w : List Char} (h : w ∈ p.language) : w ≠ [] := by
  cases p with
  | blank => exact (mem_runOf.1 h).1
  | integer => exact (mem_runOf.1 h).1
  | comment =>
    obtain ⟨cs, rfl, -⟩ := mem_comment.1 h
    exact List.cons_ne_nil _ _
  | bool b =>
    rw [mem_exactly.1 h]
    cases b <;> decide
  | keyword k =>
    rw [mem_exactly.1 h]
    cases k <;> decide
  | symbol s =>
    rw [mem_exactly.1 h]
    exact List.length_pos_iff.1 (Rule.length_spelling_pos s)
  | decimal =>
    obtain ⟨whole, fraction, rfl, -, -⟩ := mem_decimal.1 h
    exact List.append_ne_nil_of_right_ne_nil whole (List.cons_ne_nil _ _)
  | character =>
    obtain ⟨raw, -, rfl⟩ := mem_character.1 h
    exact List.cons_ne_nil _ _
  | text =>
    obtain ⟨raw, -, rfl⟩ := mem_text.1 h
    exact List.cons_ne_nil _ _
  | identifier =>
    obtain ⟨c, cs, rfl, -, -⟩ := cons_mem_mul_charIn.1 h
    exact List.cons_ne_nil _ _

theorem Munches.unique {p p' : Pattern} {w w' cs : List Char} (h : p.Munches w cs)
    (h' : p'.Munches w' cs) : p = p' ∧ w = w' := by
  have hlength : w.length = w'.length := Nat.le_antisymm
    (h'.longest p w h.matched h.front) (h.longest p' w' h'.matched h'.front)
  have hw : w = w' := (List.prefix_of_prefix_length_le h.front h'.front
    (Nat.le_of_eq hlength)).eq_of_length hlength
  subst hw
  refine ⟨?_, rfl⟩
  rcases h.first p' h'.matched with hp' | hp'
  · exact hp'.symm
  · rcases h'.first p h.matched with hp | hp
    · exact hp
    · rw [hp, hp']

theorem Munches.truncate {p : Pattern} {w front rest : List Char}
    (h : p.Munches w (w ++ (front ++ rest))) : p.Munches w (w ++ front) where
  matched := h.matched
  front := List.prefix_append w front
  longest := by
    intro p' w' hw' hfront
    refine h.longest p' w' hw' (hfront.trans ?_)
    rw [← List.append_assoc]
    exact List.prefix_append _ _
  first := h.first

end Pattern

namespace Rule

theorem starts_of_mem {r : Rule} {c : Char} {cs : List Char} (h : c :: cs ∈ r.pattern.language) :
    r.starts c = true := by
  have hle := length_le_reach h []
  rw [List.append_nil] at hle
  exact starts_of_reach (Nat.lt_of_lt_of_le (Nat.succ_pos _) hle)

theorem eq_of_mem {r r' : Rule} {w : List Char} (h : w ∈ r.pattern.language)
    (h' : w ∈ r'.pattern.language) : r = r' := by
  have hne := Pattern.ne_nil_of_mem h
  obtain ⟨c, cs, rfl⟩ := List.exists_cons_of_ne_nil hne
  have hdigits {w : List Char} (h : w ∈ Pattern.integer.language)
      (h' : w ∈ Pattern.decimal.language) : False := by
    obtain ⟨whole, fraction, rfl, -, -⟩ := Pattern.mem_decimal.1 h'
    have hpoint := (mem_runOf.1 h).2 '.' (by simp)
    revert hpoint
    decide
  have hslashes {w : List Char} {s : Symbol} (h : w ∈ Pattern.comment.language)
      (h' : w ∈ (Pattern.symbol s).language) : False := by
    obtain ⟨cs, rfl, -⟩ := Pattern.mem_comment.1 h
    have hspelling := mem_exactly.1 h'
    have htwo : ∀ s ∈ Symbol.all, s.spelling.toList.take 2 ≠ ['/', '/'] := by decide
    apply htwo s (Symbol.mem_all s)
    rw [← hspelling]
    rfl
  have hclass : r.firstClass = r'.firstClass := firstClass_eq (starts_of_mem h) (starts_of_mem h')
  cases r with
  | integer => cases r' with
    | integer => rfl
    | decimal => exact (hdigits h h').elim
    | _ => cases hclass
  | decimal => cases r' with
    | decimal => rfl
    | integer => exact (hdigits h' h).elim
    | _ => cases hclass
  | comment => cases r' with
    | comment => rfl
    | symbol s => exact (hslashes h h').elim
    | _ => cases hclass
  | symbol s => cases r' with
    | symbol s' =>
      have hspelling := (mem_exactly.1 h).symm.trans (mem_exactly.1 h')
      rw [Symbol.spelling_injective (String.toList_injective hspelling)]
    | comment => exact (hslashes h' h).elim
    | _ => cases hclass
  | _ => cases r' <;> first | rfl | cases hclass

theorem reach_eq_zero_of_farthest {cs : List Char} {rules : List Rule}
    (h : farthest cs rules = none) : ∀ r ∈ rules, r.reach cs = 0 := by
  induction rules with
  | nil => exact fun r hr => nomatch hr
  | cons s rules ih =>
    simp only [farthest] at h
    split at h
    · split at h
      · cases h
      · cases h
    · rename_i hnone
      split at h
      · rename_i hzero
        exact List.forall_mem_cons.2 ⟨hzero, ih hnone⟩
      · cases h

theorem reach_le_of_farthest {cs : List Char} {rules : List Rule} {r : Rule} {n : Nat}
    (h : farthest cs rules = some (r, n)) : ∀ r' ∈ rules, r'.reach cs ≤ n := by
  induction rules generalizing r n with
  | nil => cases h
  | cons s rules ih =>
    simp only [farthest] at h
    split at h
    · rename_i best m hbest
      have hrest := ih hbest
      simp only [Bool.and_eq_true, decide_eq_true_eq] at h
      split at h
      · rename_i hs
        cases h
        exact List.forall_mem_cons.2
          ⟨Nat.le_refl _, fun r' hr' => Nat.le_trans (hrest r' hr') hs.1⟩
      · rename_i hs
        cases h
        exact List.forall_mem_cons.2 ⟨by omega, hrest⟩
    · rename_i hnone
      have hrest := reach_eq_zero_of_farthest hnone
      split at h
      · cases h
      · cases h
        refine List.forall_mem_cons.2 ⟨Nat.le_refl _, fun r' hr' => ?_⟩
        rw [hrest r' hr']
        exact Nat.zero_le _

end Rule

namespace Pattern

theorem eq_pattern_of_rule {p : Pattern} (h : p.rule ≠ .word) : p = p.rule.pattern := by
  cases p <;> first | rfl | exact absurd rfl h

theorem wordKind_bool {w : List Char} {b : Bool} (h : w ∈ (bool b).language) :
    wordKind w = .bool b := by
  rw [mem_exactly.1 h]
  cases b <;> decide

theorem wordKind_of_keyword {w : List Char} {k : Keyword} (h : w ∈ (keyword k).language) :
    wordKind w = .keyword k := by
  rw [mem_exactly.1 h]
  exact wordKind_keyword k

theorem eq_of_mem {p p' : Pattern} {w : List Char} (h : w ∈ p.language) (h' : w ∈ p'.language)
    (hp : p ≠ .identifier) (hp' : p' ≠ .identifier) : p = p' := by
  have hrule : p.rule = p'.rule :=
    Rule.eq_of_mem (Rule.mem_language_rule h) (Rule.mem_language_rule h')
  by_cases hword : p.rule = .word
  · have hword' : p'.rule = .word := hrule.symm.trans hword
    cases p with
    | bool b => cases p' with
      | bool b' =>
        have hkind := (wordKind_bool h).symm.trans (wordKind_bool h')
        rw [TokenKind.bool.inj hkind]
      | keyword k' => cases (wordKind_bool h).symm.trans (wordKind_of_keyword h')
      | identifier => exact absurd rfl hp'
      | _ => cases hword'
    | keyword k => cases p' with
      | bool b' => cases (wordKind_of_keyword h).symm.trans (wordKind_bool h')
      | keyword k' =>
        have hkind := (wordKind_of_keyword h).symm.trans (wordKind_of_keyword h')
        rw [TokenKind.keyword.inj hkind]
      | identifier => exact absurd rfl hp'
      | _ => cases hword'
    | identifier => exact absurd rfl hp
    | _ => cases hword
  · rw [eq_pattern_of_rule hword, eq_pattern_of_rule (p := p') (hrule ▸ hword), hrule]

theorem exists_munches {cs : List Char} {r : Rule} {n : Nat}
    (h : Rule.farthest cs Rule.all = some (r, n)) :
    ∃ p w, rule p = r ∧ p.Munches w cs ∧ n = w.length := by
  have hpos := Rule.farthest_pos h
  have hn := Rule.eq_reach_of_farthest h
  obtain ⟨w, rest, rfl, hw, hlength⟩ := Rule.exists_of_reach (hn ▸ hpos)
  have hlongest : ∀ (p' : Pattern) (w' : List Char), w' ∈ p'.language → w' <+: w ++ rest →
      w'.length ≤ w.length := by
    intro p' w' hw' hfront
    obtain ⟨rest', hrest'⟩ := hfront
    have hle := Rule.length_le_reach (Rule.mem_language_rule hw') rest'
    rw [hrest'] at hle
    have hmax := Rule.reach_le_of_farthest h p'.rule (Rule.mem_all _)
    omega
  by_cases hfixed : ∃ p : Pattern, w ∈ p.language ∧ p ≠ .identifier
  · obtain ⟨p, hp, hne⟩ := hfixed
    refine ⟨p, w, Rule.eq_of_mem (Rule.mem_language_rule hp) hw, ?_, hn.trans hlength⟩
    refine ⟨hp, List.prefix_append w rest, hlongest, fun p' hp' => ?_⟩
    by_cases hne' : p' = .identifier
    · exact Or.inr hne'
    · exact Or.inl (eq_of_mem hp' hp hne' hne)
  · have hname : ∀ p : Pattern, w ∈ p.language → p = .identifier := by
      intro p hp
      by_contra hne
      exact hfixed ⟨p, hp, hne⟩
    have hr : r.pattern = .identifier := hname r.pattern hw
    have hrule : rule .identifier = r := by rw [← hr, Rule.rule_pattern]
    refine ⟨.identifier, w, hrule, ?_, hn.trans hlength⟩
    exact ⟨hr ▸ hw, List.prefix_append w rest, hlongest, fun p' hp' => Or.inr (hname p' hp')⟩

theorem Munches.farthest {p : Pattern} {w cs : List Char} (h : p.Munches w cs) :
    Rule.farthest cs Rule.all = some (p.rule, w.length) := by
  cases hfarthest : Rule.farthest cs Rule.all with
  | none =>
    obtain ⟨rest, rfl⟩ := h.front
    have hle := Rule.length_le_reach (Rule.mem_language_rule h.matched) rest
    rw [Rule.reach_eq_zero_of_farthest hfarthest p.rule (Rule.mem_all _)] at hle
    exact absurd (List.length_eq_zero_iff.1 (Nat.le_zero.1 hle)) (ne_nil_of_mem h.matched)
  | some best =>
    obtain ⟨r, n⟩ := best
    obtain ⟨p', w', hr, hmunches, hn⟩ := exists_munches hfarthest
    obtain ⟨rfl, rfl⟩ := h.unique hmunches
    rw [hr, hn]

theorem not_mem_of_farthest {cs : List Char} (h : Rule.farthest cs Rule.all = none) (p : Pattern)
    {w : List Char} (hw : w ∈ p.language) : ¬w <+: cs := by
  rintro ⟨rest, rfl⟩
  have hle := Rule.length_le_reach (Rule.mem_language_rule hw) rest
  rw [Rule.reach_eq_zero_of_farthest h p.rule (Rule.mem_all _)] at hle
  exact ne_nil_of_mem hw (List.length_eq_zero_iff.1 (Nat.le_zero.1 hle))

end Pattern

def digitsValue : List Char → Nat
  | [] => 0
  | c :: cs => (c.toNat - '0'.toNat) * Nat.pow 10 cs.length + digitsValue cs

theorem ofDigitChars_eq (cs : List Char) (n : Nat) :
    Nat.ofDigitChars 10 cs n = n * Nat.pow 10 cs.length + digitsValue cs := by
  induction cs generalizing n with
  | nil => exact (Nat.mul_one n).symm
  | cons c cs ih =>
    have hpow : Nat.pow 10 (cs.length + 1) = Nat.pow 10 cs.length * 10 := rfl
    rw [Nat.ofDigitChars_cons, ih, digitsValue, List.length_cons, hpow, Nat.add_mul,
      ← Nat.add_assoc, Nat.mul_comm 10, Nat.mul_assoc n, Nat.mul_comm 10]

namespace Pattern

def Decodes : Pattern → List Char → TokenKind → Prop
  | .bool b, _, kind => kind = .bool b
  | .keyword k, _, kind => kind = .keyword k
  | .symbol s, _, kind => kind = .symbol s
  | .integer, w, kind => digitsValue w < Nat.pow 2 63 ∧ kind = .int (digitsValue w)
  | .decimal, w, kind => ∃ whole fraction rank, w = whole ++ '.' :: fraction ∧
      (∀ c ∈ whole, isDigit c = true) ∧
      Binary64.Nearest (digitsValue (whole ++ fraction)) (Nat.pow 10 fraction.length) rank ∧
      rank < Binary64.limit ∧ kind = .float (.finite false rank)
  | .character, w, kind => ∃ raw, w = '\'' :: (raw ++ ['\'']) ∧ kind = .char (String.ofList raw)
  | .text, w, kind => ∃ raw, w = '"' :: (raw ++ ['"']) ∧ kind = .text (String.ofList raw)
  | .identifier, w, kind => kind = .ident (String.ofList w)
  | .blank, _, _ | .comment, _, _ => False

/-- A number that does not fit, with the error that says so. -/
def Overflows : Pattern → List Char → LexError → Prop
  | .integer, w, e => Nat.pow 2 63 ≤ digitsValue w ∧ e = .integerOverflow (String.ofList w)
  | .decimal, w, e => ∃ whole fraction rank, w = whole ++ '.' :: fraction ∧
      (∀ c ∈ whole, isDigit c = true) ∧
      Binary64.Nearest (digitsValue (whole ++ fraction)) (Nat.pow 10 fraction.length) rank ∧
      Binary64.limit ≤ rank ∧ e = .invalidFloat (String.ofList w)
  | _, _, _ => False

/-- What a word of a rule gives: its kind of token, or the error that its number does not fit. -/
def Gives (p : Pattern) (w : List Char) : Except LexError TokenKind → Prop
  | .ok kind => p.Decodes w kind
  | .error e => p.Overflows w e

theorem gives_iff {p : Pattern} {w : List Char} {kind : TokenKind}
    (hdecodes : ∀ k, p.Decodes w k ↔ k = kind) (hfits : ∀ e, ¬p.Overflows w e)
    {result : Except LexError TokenKind} : Except.ok kind = result ↔ p.Gives w result := by
  cases result with
  | ok k =>
    rw [Gives, hdecodes]
    exact ⟨fun h => (Except.ok.inj h).symm, fun h => congrArg Except.ok h.symm⟩
  | error e => exact ⟨fun h => (nomatch h), fun h => (hfits e h).elim⟩

theorem gives_quoted {p : Pattern} {kindOf : String → TokenKind} {quote : Char} {raw : List Char}
    (hdecodes : ∀ w k, p.Decodes w k ↔
      ∃ raw, w = quote :: (raw ++ [quote]) ∧ k = kindOf (String.ofList raw))
    (hfits : ∀ w e, ¬p.Overflows w e) {result : Except LexError TokenKind} :
    Except.ok (kindOf (unquote (quote :: (raw ++ [quote])))) = result ↔
      p.Gives (quote :: (raw ++ [quote])) result := by
  rw [Rule.unquote_quoted]
  refine gives_iff (fun k => ?_) (hfits _)
  rw [hdecodes]
  constructor
  · rintro ⟨raw', heq, rfl⟩
    rw [List.append_cancel_right (List.cons.inj heq).2]
  · rintro rfl
    exact ⟨raw, rfl, rfl⟩

theorem ofDecimal_decimalOf {whole fraction : List Char} (hwhole : ∀ c ∈ whole, isDigit c = true) :
    Binary64.ofDecimal false (decimalOf (whole ++ '.' :: fraction)) =
      Binary64.ofRatio false (digitsValue (whole ++ fraction)) (Nat.pow 10 fraction.length) := by
  rw [Decimal.decimalOf_append hwhole, Decimal.ofParts, ofDigitChars_eq, Nat.zero_mul,
    Nat.zero_add, Binary64.ofDecimal_neg]

theorem gives_integer {w : List Char} {result : Except LexError TokenKind} :
    Rule.integer.kind w = result ↔ integer.Gives w result := by
  have hbound : integerBound = Nat.pow 2 63 := rfl
  have hvalue : Nat.ofDigitChars 10 w 0 = digitsValue w := by
    rw [ofDigitChars_eq, Nat.zero_mul, Nat.zero_add]
  simp only [Rule.kind, hvalue, hbound]
  by_cases hlt : digitsValue w < Nat.pow 2 63
  · rw [if_pos hlt]
    refine gives_iff (fun k => ?_) fun e h => ?_
    · exact ⟨fun h => h.2, fun h => ⟨hlt, h⟩⟩
    · exact Nat.not_le_of_lt hlt h.1
  · rw [if_neg hlt]
    cases result with
    | ok k =>
      constructor
      · rintro ⟨⟩
      · exact fun h => absurd h.1 hlt
    | error e =>
      constructor
      · rintro ⟨⟩
        exact ⟨Nat.le_of_not_lt hlt, rfl⟩
      · exact fun h => congrArg Except.error h.2.symm

theorem split_point {whole fraction whole' fraction' : List Char}
    (hwhole : ∀ c ∈ whole, isDigit c = true) (hwhole' : ∀ c ∈ whole', isDigit c = true)
    (h : whole ++ '.' :: fraction = whole' ++ '.' :: fraction') :
    whole = whole' ∧ fraction = fraction' := by
  have hpoint (ds : List Char) : ∀ c, ('.' :: ds).head? = some c → isDigit c = false := by
    rintro _ ⟨⟩
    decide
  have hlength := runLength_append hwhole (hpoint fraction)
  rw [h, runLength_append hwhole' (hpoint fraction')] at hlength
  obtain ⟨hsame, hrest⟩ := List.append_inj h hlength.symm
  exact ⟨hsame, (List.cons.inj hrest).2⟩

theorem kind_decimal {whole fraction : List Char} {rank : Nat}
    (hwhole : ∀ c ∈ whole, isDigit c = true)
    (hrank : Binary64.rankOfRatio (digitsValue (whole ++ fraction)) (Nat.pow 10 fraction.length) =
      rank) :
    Rule.decimal.kind (whole ++ '.' :: fraction) =
      if rank < Binary64.limit then .ok (.float (.finite false rank))
      else .error (.invalidFloat (String.ofList (whole ++ '.' :: fraction))) := by
  rw [Rule.kind, ofDecimal_decimalOf hwhole, Binary64.ofRatio, hrank]
  by_cases hlt : rank < Binary64.limit
  · rw [if_pos hlt, if_pos hlt]
  · rw [if_neg hlt, if_neg hlt]

theorem gives_decimal {whole fraction : List Char} (hwhole : ∀ c ∈ whole, isDigit c = true)
    {result : Except LexError TokenKind} :
    Rule.decimal.kind (whole ++ '.' :: fraction) = result ↔
      decimal.Gives (whole ++ '.' :: fraction) result := by
  have hden : 0 < Nat.pow 10 fraction.length := Nat.pow_pos (by decide)
  have hnearest := Binary64.nearest_rankOfRatio (digitsValue (whole ++ fraction)) hden
  obtain ⟨rank, hrounded⟩ : ∃ rank, Binary64.rankOfRatio (digitsValue (whole ++ fraction))
      (Nat.pow 10 fraction.length) = rank := ⟨_, rfl⟩
  rw [hrounded] at hnearest
  rw [kind_decimal hwhole hrounded]
  -- However the word is split and rounded, it is this numeral and this rank.
  have hrank {whole' fraction' : List Char} {rank' : Nat}
      (heq : whole ++ '.' :: fraction = whole' ++ '.' :: fraction')
      (hwhole' : ∀ c ∈ whole', isDigit c = true)
      (h : Binary64.Nearest (digitsValue (whole' ++ fraction')) (Nat.pow 10 fraction'.length)
        rank') : rank' = rank := by
    obtain ⟨rfl, rfl⟩ := split_point hwhole hwhole' heq
    exact h.unique hden hnearest
  by_cases hlt : rank < Binary64.limit
  · rw [if_pos hlt]
    refine gives_iff (fun k => ?_) fun e => ?_
    · constructor
      · rintro ⟨whole', fraction', rank', heq, hwhole', hrank', -, rfl⟩
        rw [hrank heq hwhole' hrank']
      · rintro rfl
        exact ⟨whole, fraction, rank, rfl, hwhole, hnearest, hlt, rfl⟩
    · rintro ⟨whole', fraction', rank', heq, hwhole', hrank', hlimit, -⟩
      rw [hrank heq hwhole' hrank'] at hlimit
      exact Nat.not_le_of_lt hlt hlimit
  · rw [if_neg hlt]
    cases result with
    | ok k =>
      refine ⟨fun h => (nomatch h), ?_⟩
      rintro ⟨whole', fraction', rank', heq, hwhole', hrank', hlimit, -⟩
      rw [hrank heq hwhole' hrank'] at hlimit
      exact absurd hlimit hlt
    | error e =>
      constructor
      · intro h
        exact ⟨whole, fraction, rank, rfl, hwhole, hnearest, Nat.le_of_not_lt hlt,
          (Except.error.inj h).symm⟩
      · rintro ⟨whole', fraction', rank', -, -, -, -, rfl⟩
        rfl

theorem Munches.wordKind_eq_ident {w cs : List Char} (h : identifier.Munches w cs) :
    wordKind w = .ident (String.ofList w) := by
  have hother {p : Pattern} (hp : p ≠ .identifier) : w ∉ p.language := by
    intro hw
    rcases h.first p hw with heq | heq
    · exact hp heq
    · exact hp heq
  have hfree : FreeName (String.ofList w) := by
    refine ⟨mem_identifier.1 h.matched, fun htrue => ?_, fun hfalse => ?_, ?_⟩
    · apply hother (p := .bool true) (by decide)
      rw [language, mem_exactly, if_pos rfl, ← htrue, String.toList_ofList]
    · apply hother (p := .bool false) (by decide)
      rw [language, mem_exactly, if_neg Bool.false_ne_true, ← hfalse, String.toList_ofList]
    · rw [String.toList_ofList]
      cases hword : Keyword.ofWord? w with
      | none => rfl
      | some k =>
        unfold Keyword.ofWord? at hword
        have hspelling : k.spelling.toList = w := by simpa using List.find?_some hword
        exact absurd (mem_exactly.2 hspelling.symm) (hother (p := .keyword k) (by simp))
  have hkind := hfree.wordKind
  rwa [String.toList_ofList] at hkind

theorem Munches.kind_eq_iff {p : Pattern} {w cs : List Char} (h : p.Munches w cs)
    (hskipped : p.isSkipped = false) {result : Except LexError TokenKind} :
    p.rule.kind w = result ↔ p.Gives w result := by
  cases p with
  | blank => cases hskipped
  | comment => cases hskipped
  | bool b =>
    change Except.ok (wordKind w) = result ↔ _
    rw [wordKind_bool h.matched]
    exact gives_iff (fun _ => Iff.rfl) fun _ => id
  | keyword k =>
    change Except.ok (wordKind w) = result ↔ _
    rw [wordKind_of_keyword h.matched]
    exact gives_iff (fun _ => Iff.rfl) fun _ => id
  | symbol s => exact gives_iff (fun _ => Iff.rfl) fun _ => id
  | integer => exact gives_integer
  | decimal =>
    obtain ⟨whole, fraction, rfl, ⟨-, hwhole⟩, -⟩ := mem_decimal.1 h.matched
    exact gives_decimal hwhole
  | character =>
    obtain ⟨raw, -, rfl⟩ := mem_character.1 h.matched
    exact gives_quoted (fun _ _ => Iff.rfl) fun _ _ => id
  | text =>
    obtain ⟨raw, -, rfl⟩ := mem_text.1 h.matched
    exact gives_quoted (fun _ _ => Iff.rfl) fun _ _ => id
  | identifier =>
    change Except.ok (wordKind w) = result ↔ _
    rw [h.wordKind_eq_ident]
    exact gives_iff (fun _ => Iff.rfl) fun _ => id

end Pattern

end Asl
