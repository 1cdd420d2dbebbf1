import Asl.Proofs.Token.Division

/-!
# Lines

Except for blanks, nothing that the lexer reads goes over the end of a line: no other rule has a
word with a line feed, and every rule takes a line feed for the end of the text. So a text can be
read line by line, each line from the offset where it begins.
-/
namespace Asl

open Text (byteLength)

theorem Text.byteLength_toList (x : String) : byteLength x.toList = x.utf8ByteSize := by
  have hchars (cs : List Char) : byteLength cs = (String.ofList cs).utf8ByteSize := by
    induction cs with
    | nil => rfl
    | cons c cs ih =>
      rw [byteLength_cons, ih, ← List.singleton_append, String.ofList_append,
        String.utf8ByteSize_append]
      congr 1
      rw [← String.size_toByteArray, String.toByteArray_ofList, List.utf8Encode_singleton,
        List.size_toByteArray, String.length_utf8EncodeChar]
  rw [hchars, String.ofList_toList]

theorem Text.splitOn_lines {ls : List (List Char)} (h : ∀ l ∈ ls, '\n' ∉ l) (rest : List Char) :
    (ls.flatMap (· ++ ['\n']) ++ rest).splitOn '\n' = ls ++ rest.splitOn '\n' := by
  induction ls with
  | nil => rfl
  | cons l ls ih =>
    obtain ⟨hl, hls⟩ := List.forall_mem_cons.1 h
    rw [List.flatMap_cons, List.append_assoc, List.append_assoc, List.singleton_append,
      List.splitOn_append_cons_self_of_not_mem hl, ih hls, List.cons_append]

def Token.shift (k : Nat) (t : Token) : Token := { t with start := t.start + k, stop := t.stop + k }

def LexError.shift (k : Nat) : LexError → LexError
  | .unexpected lexeme offset => .unexpected lexeme (offset + k)
  | e => e

def shifted (k : Nat) : Except LexError (List Token) → Except LexError (List Token)
  | .ok ts => .ok (ts.map (Token.shift k))
  | .error e => .error (e.shift k)

theorem Rule.shift_of_kind {r : Rule} {w : List Char} {e : LexError} (h : r.kind w = .error e)
    (k : Nat) : e.shift k = e := by
  cases r with
  | integer =>
    simp only [Rule.kind] at h
    split at h <;> cases h
    rfl
  | decimal =>
    simp only [Rule.kind] at h
    split at h <;> cases h
    rfl
  | _ => cases h

theorem tokensFrom_add (offset k : Nat) (cs : List Char) :
    tokensFrom (offset + k) cs = shifted k (tokensFrom offset cs) := by
  fun_induction tokensFrom offset cs with
  | case1 =>
    rw [tokensFrom, if_pos rfl]
    rfl
  | case2 offset cs hne hnone => exact tokensFrom_of_none hne hnone
  | case3 offset cs hne r n hfarthest lexeme stop hskipped ih =>
    rw [tokensFrom_of_farthest hfarthest, if_pos hskipped, Nat.add_right_comm]
    exact ih
  | case4 offset cs hne r n hfarthest lexeme stop hskipped ih =>
    rw [tokensFrom_of_farthest hfarthest, if_neg hskipped, Nat.add_right_comm, ih]
    cases hkind : r.kind lexeme with
    | error e => exact congrArg Except.error (Rule.shift_of_kind hkind k).symm
    | ok kind => cases tokensFrom stop (cs.drop n) <;> rfl

theorem RawText.no_line_feed {cs : List Char} (h : RawText cs) : '\n' ∉ cs := by
  obtain ⟨ws, rfl, hws⟩ := Language.mem_kstar.1 (mem_star_unitOf.2 h)
  intro hline
  obtain ⟨w, hw, hline⟩ := List.mem_flatten.1 hline
  rcases mem_unitOf.1 (hws w hw) with ⟨c, rfl, -, -, hc⟩ | ⟨c, rfl, hc⟩
  · exact hc (List.mem_singleton.1 hline).symm
  · simp only [List.mem_cons, List.not_mem_nil, or_false] at hline
    rcases hline with hline | hline
    · cases hline
    · exact hc hline.symm

namespace Pattern

theorem no_line_feed {p : Pattern} {w : List Char} (hp : p ≠ .blank) (h : w ∈ p.language) :
    '\n' ∉ w := by
  have hrun {q : Char → Bool} {w : List Char} (hq : q '\n' = false) (hw : ∀ c ∈ w, q c = true) :
      '\n' ∉ w := by
    intro hline
    rw [hw _ hline] at hq
    cases hq
  cases p with
  | blank => exact absurd rfl hp
  | comment =>
    obtain ⟨cs, rfl, hcs⟩ := mem_comment.1 h
    have hnone := hrun (q := (· != '\n')) (by decide) hcs
    simp [hnone]
  | bool b =>
    rw [mem_exactly.1 h]
    cases b <;> decide
  | keyword k =>
    rw [mem_exactly.1 h]
    cases k <;> decide
  | symbol s =>
    rw [mem_exactly.1 h]
    cases s <;> decide
  | integer => exact hrun (by decide) (mem_runOf.1 h).2
  | decimal =>
    obtain ⟨whole, fraction, rfl, ⟨-, hwhole⟩, -, hfraction⟩ := mem_decimal.1 h
    have hnone := hrun (by decide) hwhole
    have hnone' := hrun (by decide) hfraction
    simp [hnone, hnone']
  | character =>
    obtain ⟨raw, hraw, rfl⟩ := mem_character.1 h
    cases hraw with
    | plain hquote hescape hline => simp [Ne.symm hline]
    | escaped hline => simp [Ne.symm hline]
  | text =>
    obtain ⟨raw, hraw, rfl⟩ := mem_text.1 h
    have hnone := hraw.no_line_feed
    simp [hnone]
  | identifier =>
    obtain ⟨c, cs, rfl, hc, hcs⟩ := cons_mem_mul_charIn.1 h
    have hnone := hrun (by decide) (mem_star_charIn.1 hcs)
    have hhead : '\n' ≠ c := by
      rintro rfl
      revert hc
      decide
    simp [hnone, hhead]

end Pattern

theorem prefix_of_line {w cs ds : List Char} (h : w <+: cs ++ '\n' :: ds) (hw : '\n' ∉ w) :
    w <+: cs := by
  rcases List.prefix_or_prefix_of_prefix h (List.prefix_append cs _) with hfront | ⟨v, rfl⟩
  · exact hfront
  · rw [List.prefix_append_right_inj] at h
    cases v with
    | nil => rw [List.append_nil]
    | cons c v =>
      obtain ⟨rfl, -⟩ := List.cons_prefix_cons.1 h
      exact absurd (List.mem_append_right _ List.mem_cons_self) hw

theorem Pattern.front_of_line {p : Pattern} {w : List Char} {c : Char} {cs ds : List Char}
    (hw : w ∈ p.language) (h : w <+: c :: cs ++ '\n' :: ds) :
    (p ≠ .blank ∧ w <+: c :: cs) ∨ (p = .blank ∧ isBlank c = true) := by
  by_cases hp : p = .blank
  · subst hp
    obtain ⟨hne, hall⟩ := mem_runOf.1 hw
    obtain ⟨d, w, rfl⟩ := List.exists_cons_of_ne_nil hne
    obtain ⟨rfl, -⟩ := List.cons_prefix_cons.1 h
    exact Or.inr ⟨rfl, hall d List.mem_cons_self⟩
  · exact Or.inl ⟨hp, prefix_of_line h (no_line_feed hp hw)⟩

/-- The longest word of a line is the longest word of the text, unless it is a blank. -/
theorem Pattern.Munches.line {p : Pattern} {w cs : List Char} (h : p.Munches w cs)
    (hp : p ≠ .blank) (ds : List Char) : p.Munches w (cs ++ '\n' :: ds) where
  matched := h.matched
  front := h.front.trans (List.prefix_append _ _)
  longest := by
    intro p' w' hw' hfront
    obtain ⟨c, w, rfl⟩ := List.exists_cons_of_ne_nil (ne_nil_of_mem h.matched)
    obtain ⟨rest, rfl⟩ := h.front
    obtain ⟨-, hline⟩ | ⟨rfl, hblank⟩ := front_of_line hw' hfront
    · exact h.longest p' w' hw' hline
    · -- A rule that begins with a blank is the rule for blanks.
      have hrule := Rule.starts_blank hblank (Rule.starts_of_mem (Rule.mem_language_rule h.matched))
      have hword : p.rule ≠ .word := by rw [hrule]; decide
      exact absurd ((eq_pattern_of_rule hword).trans (congrArg Rule.pattern hrule)) hp
  first := h.first

theorem Rule.farthest_line {cs : List Char} (hne : cs ≠ []) (h : farthest cs all = none)
    (ds : List Char) : farthest (cs ++ '\n' :: ds) all = none := by
  obtain ⟨c, cs, rfl⟩ := List.exists_cons_of_ne_nil hne
  cases hfarthest : farthest (c :: cs ++ '\n' :: ds) all with
  | none => rfl
  | some best =>
    obtain ⟨r, n⟩ := best
    obtain ⟨p, w, -, hw, -⟩ := Pattern.exists_munches hfarthest
    obtain ⟨-, hfront⟩ | ⟨-, hblank⟩ := Pattern.front_of_line hw.matched hw.front
    · exact absurd hfront (Pattern.not_mem_of_farthest h p hw.matched)
    · rw [farthest_blank hblank] at h
      cases h

theorem unitsLength_line (cs ds : List Char) :
    unitsLength (cs ++ '\n' :: ds) = unitsLength cs := by
  have hstops (ds : List Char) : unitsLength ('\n' :: ds) = 0 := by
    rw [unitsLength.eq_def]
    rfl
  fun_induction unitsLength cs with
  | case1 => exact hstops ds
  | case2 c cs hstop =>
    rw [List.cons_append, unitsLength.eq_def]
    exact if_pos hstop
  | case3 hplain =>
    rw [List.cons_append, unitsLength.eq_def]
    simp
  | case4 cs hplain =>
    rw [List.cons_append, unitsLength.eq_def]
    simp
  | case5 d cs hd hplain ih =>
    rw [List.cons_append, List.cons_append, unitsLength.eq_def]
    simp only [if_neg hplain, if_pos, if_neg hd, ih]
  | case6 c cs hplain hescape ih =>
    rw [List.cons_append, unitsLength.eq_def]
    simp only [if_neg hplain, if_neg hescape, ih]

theorem unmatched_line {cs : List Char} (hne : cs ≠ []) (ds : List Char) :
    unmatched (cs ++ '\n' :: ds) = unmatched cs := by
  obtain ⟨c, cs, rfl⟩ := List.exists_cons_of_ne_nil hne
  by_cases hc : c = '"'
  · subst hc
    change '"' :: (cs ++ '\n' :: ds).take (unitsLength (cs ++ '\n' :: ds)) =
      '"' :: cs.take (unitsLength cs)
    rw [unitsLength_line, List.take_append_of_le_length (unitsLength_le cs)]
  · rw [List.cons_append, unmatched_cons hc, unmatched_cons hc]

theorem tokensFrom_blanks {w : List Char} (hw : ∀ c ∈ w, isBlank c = true) (offset : Nat)
    (cs : List Char) : tokensFrom offset (w ++ cs) = tokensFrom (offset + byteLength w) cs := by
  induction w generalizing offset with
  | nil => rfl
  | cons c w ih =>
    obtain ⟨hc, hw⟩ := List.forall_mem_cons.1 hw
    rw [List.cons_append, tokensFrom_blank hc, ih hw, Text.byteLength_cons, Nat.add_assoc]

/-- A blank or comment of a line is passed over in the text. Blanks may go on behind the end of the
line; they are then passed over together with those. -/
theorem Pattern.Munches.skip_line {p : Pattern} {w cs : List Char} (h : p.Munches w cs)
    (hskipped : p.isSkipped = true) (offset : Nat) (ds : List Char) :
    tokensFrom offset (cs ++ '\n' :: ds) =
      tokensFrom (offset + byteLength w) (cs.drop w.length ++ '\n' :: ds) := by
  by_cases hp : p = .blank
  · subst hp
    have hw := (mem_runOf.1 h.matched).2
    obtain ⟨rest, rfl⟩ := h.front
    rw [List.append_assoc, tokensFrom_blanks hw, List.drop_left]
  · have hline := h.line hp ds
    obtain ⟨rest, rfl⟩ := h.front
    rw [List.append_assoc] at hline ⊢
    rw [hline.tokensFrom_eq, if_pos hskipped, List.drop_left]

theorem Pattern.Munches.offset_drop {p : Pattern} {w cs : List Char} (h : p.Munches w cs)
    (offset : Nat) : offset + byteLength w + byteLength (cs.drop w.length) =
      offset + byteLength cs := by
  rw [Nat.add_assoc, ← Text.byteLength_append, h.append_drop]

theorem tokensFrom_line (offset : Nat) (cs ds : List Char) :
    tokensFrom offset (cs ++ '\n' :: ds) = do
      let ts ← tokensFrom offset cs
      let us ← tokensFrom (offset + byteLength cs + 1) ds
      return ts ++ us := by
  fun_induction tokensFrom offset cs with
  | case1 offset =>
    have hsize : '\n'.utf8Size = 1 := by decide
    rw [List.nil_append, tokensFrom_blank (by decide), hsize]
    change _ = (tokensFrom (offset + 1) ds).bind fun us => .ok ([] ++ us)
    cases tokensFrom (offset + 1) ds <;> rfl
  | case2 offset cs hne hnone =>
    rw [tokensFrom_of_none (by simp) (Rule.farthest_line hne hnone ds), unmatched_line hne]
    rfl
  | case3 offset cs hne r n hfarthest lexeme stop hskipped ih =>
    obtain ⟨p, w, rfl, hw, rfl⟩ := Pattern.exists_munches hfarthest
    rw [Pattern.isSkipped_rule] at hskipped
    simp only [stop, lexeme, hw.take_length] at ih ⊢
    rw [hw.skip_line hskipped, ih, hw.offset_drop]
  | case4 offset cs hne r n hfarthest lexeme stop hskipped ih =>
    obtain ⟨p, w, rfl, hw, rfl⟩ := Pattern.exists_munches hfarthest
    rw [Pattern.isSkipped_rule] at hskipped
    simp only [stop, lexeme, hw.take_length] at ih ⊢
    have hblank : p ≠ .blank := by
      rintro rfl
      exact hskipped rfl
    have hline := hw.line hblank ds
    have hsplit : cs ++ '\n' :: ds = w ++ (cs.drop w.length ++ '\n' :: ds) := by
      rw [← List.append_assoc, hw.append_drop]
    rw [hsplit] at hline
    rw [hsplit, hline.tokensFrom_eq, if_neg hskipped, ih, hw.offset_drop]
    cases p.rule.kind w with
    | error e => rfl
    | ok kind =>
      cases tokensFrom (offset + byteLength w) (cs.drop w.length) with
      | error e => rfl
      | ok ts => cases tokensFrom (offset + byteLength cs + 1) ds <;> rfl

/-- A text can be read line by line: an error of the first line is the error of the whole, and
otherwise the tokens of the rest follow those of the first line, or the error of the rest stands for
the whole, with all offsets moved by the length of the line and its end. -/
theorem tokens_lines (source₁ source₂ : String) :
    tokens (source₁ ++ "\n" ++ source₂) =
      match tokens source₁ with
      | .error e => .error e
      | .ok ts => match tokens source₂ with
        | .error e => .error (e.shift (source₁.utf8ByteSize + 1))
        | .ok us => .ok (ts ++ us.map (Token.shift (source₁.utf8ByteSize + 1))) := by
  have hline : "\n".toList = ['\n'] := rfl
  have hmoved := tokensFrom_add 0 (source₁.utf8ByteSize + 1) source₂.toList
  rw [tokens, String.toList_append, String.toList_append, hline, List.append_assoc,
    List.singleton_append, tokensFrom_line, Text.byteLength_toList, Nat.add_assoc, hmoved, tokens,
    tokens]
  cases tokensFrom 0 source₁.toList with
  | error e => rfl
  | ok ts => cases tokensFrom 0 source₂.toList <;> rfl

end Asl
