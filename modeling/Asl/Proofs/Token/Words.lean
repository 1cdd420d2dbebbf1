import Asl.Token.Lexer

/-!
# Identifiers

An identifier is a letter with letters, digits and underscores behind it. Whatever the lexer takes
for one is one, since only the rule for words gives identifiers.
-/
namespace Asl

/-- A letter with letters, digits and underscores behind it. -/
def isIdentifier (x : String) : Bool :=
  match x.toList with
  | c :: cs => isLetter c && cs.all isWordChar
  | [] => false

theorem exists_of_isIdentifier {x : String} (h : isIdentifier x = true) :
    ∃ c cs, x.toList = c :: cs ∧ isLetter c = true ∧ ∀ d ∈ cs, isWordChar d = true := by
  unfold isIdentifier at h
  split at h
  · rename_i c cs hx
    obtain ⟨hc, hcs⟩ := Bool.and_eq_true_iff.1 h
    exact ⟨c, cs, hx, hc, List.all_eq_true.1 hcs⟩
  · cases h

def Token.Named (t : Token) : Prop := ∀ x, t.kind = .ident x → isIdentifier x = true

theorem take_runLength (p : Char → Bool) (cs : List Char) :
    cs.take (runLength p cs) = cs.takeWhile p := by
  have hprefix := List.takeWhile_prefix p (l := cs)
  exact (List.prefix_iff_eq_take.1 hprefix).symm

namespace Rule

theorem eq_reach_of_farthest {cs : List Char} {rules : List Rule} {r : Rule} {n : Nat}
    (h : farthest cs rules = some (r, n)) : n = r.reach cs := by
  induction rules generalizing r n with
  | nil => cases h
  | cons s rules ih =>
    simp only [farthest] at h
    split at h
    · rename_i best m hm
      split at h
      · cases h
        rfl
      · cases h
        exact ih hm
    · split at h
      · cases h
      · cases h
        rfl

theorem isIdentifier_of_word {cs : List Char} (h : 0 < Rule.word.reach cs) :
    isIdentifier (String.ofList (cs.take (Rule.word.reach cs))) = true := by
  cases cs with
  | nil => cases h
  | cons c cs =>
    by_cases hc : isLetter c = true
    · have hreach : Rule.word.reach (c :: cs) = runLength isWordChar cs + 1 := by
        rw [reach, if_pos hc, Nat.add_comm]
      rw [hreach, List.take_succ_cons, take_runLength, isIdentifier, String.toList_ofList]
      simp only [hc, List.all_takeWhile, Bool.and_self]
    · rw [reach, if_neg hc] at h
      cases h

theorem kind_eq_ident {r : Rule} {lexeme : List Char} {x : String}
    (h : r.kind lexeme = .ok (.ident x)) (hr : r.isSkipped = false) :
    r = .word ∧ x = String.ofList lexeme := by
  cases r with
  | word =>
    refine ⟨rfl, ?_⟩
    have hkind : wordKind lexeme = .ident x := Except.ok.inj h
    unfold wordKind at hkind
    split at hkind
    · cases hkind
    · split at hkind
      · cases hkind
      · split at hkind
        · cases hkind
        · exact (TokenKind.ident.inj hkind).symm
  | blank => cases hr
  | comment => cases hr
  | symbol s => cases h
  | character => cases h
  | text => cases h
  | integer =>
    simp only [kind] at h
    split at h
    · cases h
    · cases h
  | decimal =>
    simp only [kind] at h
    split at h
    · cases h
    · cases h

end Rule

theorem exists_rule_of_mem_tokensFrom {offset : Nat} {cs : List Char} {ts : List Token}
    (h : tokensFrom offset cs = .ok ts) {t : Token} (ht : t ∈ ts) :
    ∃ cs' r, Rule.isSkipped r = false ∧ 0 < r.reach cs' ∧
      r.kind (cs'.take (r.reach cs')) = .ok t.kind := by
  fun_induction tokensFrom offset cs generalizing ts with
  | case1 =>
    cases h
    cases ht
  | case2 => cases h
  | case3 =>
    rename_i ih
    exact ih h ht
  | case4 offset cs _ rule n hfarthest lexeme stop hskipped =>
    rename_i ih
    cases hkind : Rule.kind lexeme rule with
    | error e =>
      rw [hkind] at h
      cases h
    | ok kind =>
      cases hrest : tokensFrom stop (cs.drop n) with
      | error e =>
        rw [hkind, hrest] at h
        cases h
      | ok tokens =>
        rw [hkind, hrest] at h
        cases h
        rcases List.mem_cons.1 ht with rfl | ht
        · have hreach := Rule.eq_reach_of_farthest hfarthest
          have hpos := Rule.farthest_pos hfarthest
          subst hreach
          exact ⟨cs, rule, Bool.eq_false_iff.2 hskipped, hpos, hkind⟩
        · exact ih hrest ht

theorem tokens_named {source : String} {ts : List Token} (h : tokens source = .ok ts) :
    ∀ t ∈ ts, t.Named := by
  intro t ht x hx
  obtain ⟨cs, r, hskipped, hpos, hkind⟩ := exists_rule_of_mem_tokensFrom h ht
  rw [hx] at hkind
  obtain ⟨rfl, rfl⟩ := Rule.kind_eq_ident hkind hskipped
  exact Rule.isIdentifier_of_word hpos

end Asl
