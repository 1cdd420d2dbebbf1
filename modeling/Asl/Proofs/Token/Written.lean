import Asl.Proofs.Token.Words

/-!
# Tokens that a text can have

Not every kind of token can be written down: a number is not negative and fits in 64 bits, the raw
text of a literal does not end the literal, and a name is not a keyword. Every token that the lexer
gives is one that can be written.
-/
namespace Asl

/-- The raw text of a character literal: one plain character, or a backslash with one. -/
inductive RawChar : List Char → Prop
  | plain {c : Char} : c ≠ '\'' → c ≠ '\\' → c ≠ '\n' → RawChar [c]
  | escaped {c : Char} : c ≠ '\n' → RawChar ['\\', c]

def RawText (cs : List Char) : Prop := unitsLength cs = cs.length

instance : DecidablePred RawText := fun _ => inferInstanceAs (Decidable (_ = _))

/-- An identifier that no keyword and no boolean spells. -/
structure FreeName (x : String) : Prop where
  identifier : isIdentifier x = true
  notTrue : x ≠ "true"
  notFalse : x ≠ "false"
  notKeyword : Keyword.ofWord? x.toList = none

instance : DecidablePred FreeName := fun x =>
  decidable_of_iff (isIdentifier x = true ∧ x ≠ "true" ∧ x ≠ "false" ∧
    Keyword.ofWord? x.toList = none)
    ⟨fun h => ⟨h.1, h.2.1, h.2.2.1, h.2.2.2⟩,
      fun h => ⟨h.identifier, h.notTrue, h.notFalse, h.notKeyword⟩⟩

def TokenKind.Written : TokenKind → Prop
  | .keyword _ | .symbol _ | .bool _ => True
  | .int n => 0 ≤ n ∧ n < integerBound
  | .float x => ∃ rank, rank < Binary64.limit ∧ x = .finite false rank
  | .char raw => RawChar raw.toList
  | .text raw => RawText raw.toList
  | .ident name => FreeName name

theorem wordKind_written {cs : List Char} (h : isIdentifier (String.ofList cs) = true) :
    (wordKind cs).Written := by
  unfold wordKind
  split
  · trivial
  · rename_i htrue
    split
    · trivial
    · rename_i hfalse
      split
      · trivial
      · rename_i hnone
        refine ⟨h, fun hx => htrue ?_, fun hx => hfalse ?_, by rwa [String.toList_ofList]⟩
        · rw [← hx, String.toList_ofList]
        · rw [← hx, String.toList_ofList]

theorem rawText_take (cs : List Char) : RawText (cs.take (unitsLength cs)) := by
  unfold RawText
  fun_induction unitsLength cs with
  | case1 => rfl
  | case2 => rfl
  | case3 => rfl
  | case4 => rfl
  | case5 d ds hd hplain ih =>
    rw [List.take_succ_cons, List.take_succ_cons, unitsLength, if_neg hplain, if_pos rfl]
    simp only [if_neg hd, List.length_cons, ih]
  | case6 c cs hplain hescape ih =>
    rw [List.take_succ_cons, unitsLength.eq_def]
    simp only [if_neg hplain, if_neg hescape, List.length_cons, ih]

theorem RawText.unitsLength_append {raw : List Char} (h : RawText raw) (rest : List Char) :
    unitsLength (raw ++ rest) = raw.length + unitsLength rest := by
  unfold RawText at h
  fun_induction unitsLength raw with
  | case1 => rw [List.nil_append, List.length_nil, Nat.zero_add]
  | case2 => cases h
  | case3 => cases h
  | case4 => cases h
  | case5 d ds hd hplain ih =>
    have hds : unitsLength ds = ds.length := by
      simp only [List.length_cons] at h
      omega
    rw [List.cons_append, List.cons_append, unitsLength, if_neg hplain, if_pos rfl]
    simp only [if_neg hd, List.length_cons, ih hds]
    omega
  | case6 c cs hplain hescape ih =>
    have hcs : unitsLength cs = cs.length := by
      simp only [List.length_cons] at h
      omega
    rw [List.cons_append, unitsLength.eq_def]
    simp only [if_neg hplain, if_neg hescape, List.length_cons, ih hcs]
    omega

theorem RawText.append {raw rest : List Char} (h : RawText raw) (hrest : RawText rest) :
    RawText (raw ++ rest) := by
  rw [RawText, h.unitsLength_append, hrest, List.length_append]

namespace Rule

theorem exists_of_character {cs : List Char} (h : 0 < Rule.character.reach cs) :
    ∃ raw rest, RawChar raw ∧ cs = '\'' :: (raw ++ '\'' :: rest) ∧
      Rule.character.reach cs = raw.length + 2 := by
  unfold reach at h ⊢
  split at h <;> first | contradiction | skip
  · rename_i c rest _
    split at h
    · contradiction
    · rename_i hc
      exact ⟨['\\', c], rest, .escaped hc, rfl, if_neg hc⟩
  · rename_i c rest _ _
    split at h
    · contradiction
    · rename_i hc
      have hraw : RawChar [c] := by
        simp only [Bool.or_eq_true, decide_eq_true_eq, not_or] at hc
        exact .plain hc.1.1 hc.1.2 hc.2
      exact ⟨[c], rest, hraw, rfl, if_neg hc⟩

theorem exists_of_text {cs : List Char} (h : 0 < Rule.text.reach cs) :
    ∃ raw rest, RawText raw ∧ cs = '"' :: (raw ++ '"' :: rest) ∧
      Rule.text.reach cs = raw.length + 2 := by
  unfold reach at h ⊢
  split at h <;> first | contradiction | skip
  rename_i cs _
  split at h
  · rename_i rest hrest
    refine ⟨cs.take (unitsLength cs), rest, rawText_take cs, ?_, ?_⟩
    · rw [← hrest, List.take_append_drop]
    · rw [List.length_take_of_le (unitsLength_le cs)]
  · contradiction

theorem unquote_quoted (q : Char) (raw : List Char) :
    unquote (q :: (raw ++ [q])) = String.ofList raw := by
  rw [unquote, List.drop_one, List.tail_cons, List.dropLast_concat]

theorem unquote_take (q : Char) (raw rest : List Char) :
    unquote ((q :: (raw ++ q :: rest)).take (raw.length + 2)) = String.ofList raw := by
  have htake : (raw ++ q :: rest).take (raw.length + 1) = raw ++ [q] := by
    rw [List.take_length_add_append]
    rfl
  rw [List.take_succ_cons, htake, unquote_quoted]

end Rule

namespace Binary64

theorem ofRatio_eq_finite {num den : Nat} {negative : Bool} {rank : Nat}
    (h : ofRatio false num den = .finite negative rank) : negative = false ∧ rank < limit := by
  simp only [ofRatio] at h
  split at h
  · rename_i hlt
    cases h
    exact ⟨rfl, hlt⟩
  · cases h

theorem ofDecimal_eq_finite {d : Decimal} {negative : Bool} {rank : Nat}
    (h : ofDecimal false d = .finite negative rank) : negative = false ∧ rank < limit := by
  unfold ofDecimal at h
  split at h
  · exact ofRatio_eq_finite h
  · exact ofRatio_eq_finite h

end Binary64

theorem Rule.written_of_kind {r : Rule} {cs : List Char} {k : TokenKind}
    (hskipped : r.isSkipped = false) (hpos : 0 < r.reach cs)
    (h : r.kind (cs.take (r.reach cs)) = .ok k) : k.Written := by
  cases r with
  | blank => cases hskipped
  | comment => cases hskipped
  | word =>
    cases h
    exact wordKind_written (Rule.isIdentifier_of_word hpos)
  | integer =>
    simp only [Rule.kind] at h
    split at h
    · rename_i hlt
      cases h
      exact ⟨Int.natCast_nonneg _, Int.ofNat_lt.2 hlt⟩
    · cases h
  | decimal =>
    simp only [Rule.kind] at h
    split at h
    · rename_i negative rank hfinite
      cases h
      obtain ⟨rfl, hrank⟩ := Binary64.ofDecimal_eq_finite hfinite
      exact ⟨rank, hrank, rfl⟩
    · cases h
  | character =>
    obtain ⟨raw, rest, hraw, hcs, hreach⟩ := exists_of_character hpos
    cases h
    change RawChar (unquote _).toList
    rwa [hreach, hcs, unquote_take, String.toList_ofList]
  | text =>
    obtain ⟨raw, rest, hraw, hcs, hreach⟩ := exists_of_text hpos
    cases h
    change RawText (unquote _).toList
    rwa [hreach, hcs, unquote_take, String.toList_ofList]
  | symbol s =>
    cases h
    trivial

theorem tokens_written {source : String} {ts : List Token} (h : tokens source = .ok ts) :
    ∀ t ∈ ts, t.kind.Written := by
  intro t ht
  obtain ⟨cs, r, hskipped, hpos, hkind⟩ := exists_rule_of_mem_tokensFrom h ht
  exact Rule.written_of_kind hskipped hpos hkind

end Asl
