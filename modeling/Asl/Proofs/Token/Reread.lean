import Asl.Proofs.Token.Numerals

/-!
# Texts that are read back

Every kind of token that can be written is read back from its spelling, wherever the next character
does not lengthen it. A text of spellings with blanks between them is then read back token by token.
-/
namespace Asl

namespace Rule

theorem reads_character {raw : String} (h : RawChar raw.toList) (rest : List Char) :
    Rule.character.Reads (.char raw) rest := by
  have hspelling : (TokenKind.char raw).spelling.toList = '\'' :: (raw.toList ++ ['\'']) := by
    simp [TokenKind.spelling]
  have hothers : ∀ r : Rule, r ≠ .character → ∀ cs n, 0 < n → r.reach ('\'' :: cs) < n :=
    fun r hr cs n hn => reach_lt_of_not_starts hn fun hstarts => hr (starts_quote hstarts)
  constructor
  · rw [hspelling]
    revert h
    generalize raw.toList = cs
    intro h
    cases h with
    | @plain c hquote hescape hline => simp [reach, hquote, hescape, hline]
    | @escaped c hline => simp [reach, hline]
  · rw [hspelling]
    exact Nat.succ_pos _
  · intro r hr
    rw [hspelling]
    exact hothers r hr _ _ (Nat.succ_pos _)
  · rw [hspelling]
    change Except.ok (TokenKind.char (unquote _)) = _
    rw [unquote_quoted, String.ofList_toList]
  · rfl

theorem reads_text {raw : String} (h : RawText raw.toList) (rest : List Char) :
    Rule.text.Reads (.text raw) rest := by
  have hspelling : (TokenKind.text raw).spelling.toList = '"' :: (raw.toList ++ ['"']) := by
    simp [TokenKind.spelling]
  constructor
  · rw [hspelling, List.cons_append, List.append_assoc, List.singleton_append]
    have hunits : unitsLength (raw.toList ++ '"' :: rest) = raw.toList.length := by
      rw [h.unitsLength_append, unitsLength.eq_def]
      rfl
    simp only [reach, hunits, List.drop_left, List.length_cons, List.length_append,
      List.length_nil]
  · rw [hspelling]
    exact Nat.succ_pos _
  · intro r hr
    rw [hspelling]
    exact reach_lt_of_not_starts (Nat.succ_pos _) fun hstarts => hr (starts_doubleQuote hstarts)
  · rw [hspelling]
    change Except.ok (TokenKind.text (unquote _)) = _
    rw [unquote_quoted, String.ofList_toList]
  · rfl

end Rule

theorem Keyword.isIdentifier_spelling (k : Keyword) : isIdentifier k.spelling = true := by
  cases k <;> decide +kernel

theorem wordKind_keyword (k : Keyword) : wordKind k.spelling.toList = .keyword k := by
  have htrue : k.spelling.toList ≠ "true".toList := by cases k <;> decide
  have hfalse : k.spelling.toList ≠ "false".toList := by cases k <;> decide
  rw [wordKind, if_neg htrue, if_neg hfalse, Keyword.ofWord?_spelling]

theorem FreeName.wordKind {x : String} (h : FreeName x) : wordKind x.toList = .ident x := by
  have htrue : x.toList ≠ "true".toList := fun hx => h.notTrue (String.toList_inj.1 hx)
  have hfalse : x.toList ≠ "false".toList := fun hx => h.notFalse (String.toList_inj.1 hx)
  rw [Asl.wordKind, if_neg htrue, if_neg hfalse, h.notKeyword, String.ofList_toList]

theorem TokenKind.exists_reads {k : TokenKind} (hk : k.Written) {rest : List Char}
    (hrest : ∀ d, rest.head? = some d → k.grows d = false) : ∃ r : Rule, r.Reads k rest := by
  have hword : ∀ {x : String}, isIdentifier x = true → k.spelling = x →
      (∀ d, rest.head? = some d → isWordChar d = false) → wordKind x.toList = k →
      ∃ r : Rule, r.Reads k rest := by
    intro x hx hspelling hafter hkind
    obtain ⟨c, cs, hcs, hc, hword⟩ := exists_of_isIdentifier hx
    exact ⟨.word, Rule.reads_word (by rw [hspelling, hcs]) hc hword hafter (by rwa [hspelling])⟩
  cases k with
  | keyword k => exact hword k.isIdentifier_spelling rfl hrest (wordKind_keyword k)
  | symbol s => exact ⟨.symbol s, Rule.reads_symbol hrest⟩
  | bool b =>
    cases b with
    | true => exact hword (x := "true") (by decide) rfl hrest rfl
    | false => exact hword (x := "false") (by decide) rfl hrest rfl
  | int n => exact ⟨.integer, Rule.reads_integer hk hrest⟩
  | float x => exact ⟨.decimal, Rule.reads_decimal hk hrest⟩
  | char raw => exact ⟨.character, Rule.reads_character hk rest⟩
  | text raw => exact ⟨.text, Rule.reads_text hk rest⟩
  | ident name => exact hword hk.identifier rfl hrest hk.wordKind

def Lexes (cs : List Char) (ks : List TokenKind) : Prop :=
  ∀ offset, ∃ ts, tokensFrom offset cs = .ok ts ∧ ts.map Token.kind = ks

theorem tokensFrom_of_farthest {offset n : Nat} {cs : List Char} {r : Rule}
    (h : Rule.farthest cs Rule.all = some (r, n)) :
    tokensFrom offset cs =
      if r.isSkipped then tokensFrom (offset + Text.byteLength (cs.take n)) (cs.drop n)
      else do
        let kind ← r.kind (cs.take n)
        let tokens ← tokensFrom (offset + Text.byteLength (cs.take n)) (cs.drop n)
        return ⟨kind, offset, offset + Text.byteLength (cs.take n), String.ofList (cs.take n)⟩ ::
          tokens := by
  have hnil : Rule.farthest [] Rule.all = none := by decide
  have hne : cs ≠ [] := by
    rintro rfl
    rw [hnil] at h
    cases h
  rw [tokensFrom, if_neg hne]
  split
  · rename_i hnone
    rw [h] at hnone
    cases hnone
  · rename_i r' n' hsome
    rw [h] at hsome
    cases hsome
    rfl

theorem tokensFrom_of_none {offset : Nat} {cs : List Char} (hne : cs ≠ [])
    (h : Rule.farthest cs Rule.all = none) :
    tokensFrom offset cs = .error (.unexpected (String.ofList (unmatched cs)) offset) := by
  rw [tokensFrom, if_neg hne]
  split
  · rfl
  · rename_i r n hsome
    rw [h] at hsome
    cases hsome

theorem lexes_nil : Lexes [] [] := fun offset => ⟨[], by rw [tokensFrom, if_pos rfl], rfl⟩

theorem lexes_token {k : TokenKind} (hk : k.Written) {rest : List Char}
    (hrest : ∀ d, rest.head? = some d → k.grows d = false) {ks : List TokenKind}
    (h : Lexes rest ks) : Lexes (k.spelling.toList ++ rest) (k :: ks) := by
  intro offset
  obtain ⟨r, hr⟩ := TokenKind.exists_reads hk hrest
  have hfarthest := Rule.farthest_eq (Rule.mem_all r) (by rw [hr.reach]; exact hr.pos)
    fun r' _ hne => by rw [hr.reach]; exact hr.others r' hne
  rw [hr.reach] at hfarthest
  obtain ⟨ts, hts, hkinds⟩ := h (offset + Text.byteLength k.spelling.toList)
  have hskipped : ¬r.isSkipped = true := by
    rw [hr.token]
    decide
  rw [tokensFrom_of_farthest hfarthest, if_neg hskipped, List.take_left, List.drop_left, hr.kind,
    hts]
  exact ⟨_, rfl, congrArg (k :: ·) hkinds⟩

theorem Rule.farthest_blank {c : Char} {cs : List Char} (hc : isBlank c = true) :
    farthest (c :: cs) all = some (.blank, runLength isBlank cs + 1) := by
  have hreach : blank.reach (c :: cs) = runLength isBlank cs + 1 := by
    rw [reach, runLength, List.takeWhile_cons, if_pos hc, List.length_cons]
    rfl
  rw [← hreach]
  refine farthest_eq (mem_all _) (by rw [hreach]; exact Nat.succ_pos _) fun r _ hr => ?_
  rw [hreach]
  exact reach_lt_of_not_starts (Nat.succ_pos _) fun hstarts => hr (starts_blank hc hstarts)

theorem tokensFrom_blank {c : Char} (hc : isBlank c = true) (offset : Nat) (cs : List Char) :
    tokensFrom offset (c :: cs) = tokensFrom (offset + c.utf8Size) cs := by
  have hskipped : Rule.blank.isSkipped = true := rfl
  rw [tokensFrom_of_farthest (Rule.farthest_blank hc), if_pos hskipped, List.take_succ_cons,
    List.drop_succ_cons]
  cases cs with
  | nil => rfl
  | cons d ds =>
    by_cases hd : isBlank d = true
    · -- The rule for blanks takes the same characters from the rest of the text.
      have hrun : runLength isBlank (d :: ds) = runLength isBlank ds + 1 := by
        rw [runLength, List.takeWhile_cons, if_pos hd, List.length_cons]
        rfl
      rw [tokensFrom_of_farthest (Rule.farthest_blank hd), if_pos hskipped, hrun,
        Text.byteLength_cons, Nat.add_assoc]
    · have hrun : runLength isBlank (d :: ds) = 0 := by
        rw [runLength, List.takeWhile_cons, if_neg hd]
        rfl
      rw [hrun]
      rfl

theorem lexes_blank {c : Char} (hc : isBlank c = true) {cs : List Char} {ks : List TokenKind}
    (h : Lexes cs ks) : Lexes (c :: cs) ks := by
  intro offset
  rw [tokensFrom_blank hc]
  exact h _

end Asl
