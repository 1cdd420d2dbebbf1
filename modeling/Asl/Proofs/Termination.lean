import Asl.Proofs.Tree.Calls

/-!
# Reading ends and stays within the tokens

Wherever a cursor stands in a token list, every parser of the language comes to an end there. It
never goes back and never runs over the last token, whether it succeeds or fails, and a parser of a
construct that has at least one token has gone on if it succeeds. So a program that has been read is
read to the end, and a parser that is called again and again never complains that it is not.
-/
namespace Asl

structure Cursor.At (c : Cursor) (ts : List Token) (pos : Nat) : Prop where
  le : pos ≤ ts.length
  rest : c.rest = ts.drop pos

/-- Where the token before a place ends, or zero at the first place. -/
def endBefore (ts : List Token) : Nat → Nat
  | 0 => 0
  | pos + 1 => (ts[pos]?.map Token.stop).getD 0

/-- From one place of a token list a cursor has come to another. If its last end offset was the end
of the token before it, it still is. -/
structure Cursor.Comes (c : Cursor) (ts : List Token) (pos : Nat) (c' : Cursor) (pos' : Nat) :
    Prop where
  stands : c'.At ts pos'
  le : pos ≤ pos'
  lastStop : c.lastStop = endBefore ts pos → c'.lastStop = endBefore ts pos'

theorem endBefore_add {ts us vs : List Token} {pos : Nat} (h : ts.drop pos = us ++ vs) :
    endBefore ts (pos + us.length) = (us.getLast?.map Token.stop).getD (endBefore ts pos) := by
  rcases List.eq_nil_or_concat us with rfl | ⟨us, t, rfl⟩
  · rfl
  · have hget : ts[pos + us.length]? = some t := by
      rw [← List.getElem?_drop, h]
      simp
    rw [List.concat_eq_append, List.length_append, List.length_singleton, ← Nat.add_assoc,
      endBefore, hget, List.getLast?_concat]
    rfl

theorem Cursor.At.comes {c c' : Cursor} {ts us : List Token} {ids : List NodeId} {pos : Nat}
    (h : c.At ts pos) (hpass : c.Passes us ids c') : c.Comes ts pos c' (pos + us.length) := by
  have hdrop : ts.drop pos = us ++ c'.rest := by rw [← h.rest, hpass.rest]
  have hlength := congrArg List.length hdrop
  rw [List.length_drop, List.length_append] at hlength
  have hle := h.le
  refine ⟨⟨by omega, ?_⟩, Nat.le_add_right pos us.length, fun hstop => ?_⟩
  · rw [← List.drop_drop, hdrop, List.drop_left]
  · rw [hpass.lastStop, endBefore_add hdrop, hstop]

namespace Parser

/-- Readers that pass the next token wherever a cursor may come to, if one is left. What they do at
the end of the tokens, or elsewhere, is left open. -/
def Readers.PassesFrom (k : Readers) (c : Cursor) (ts : List Token) (pos : Nat) : Prop :=
  ∀ c' pos', c.Comes ts pos c' pos' → pos' < ts.length →
    k.advance.run c' = Parser.advance.run c'

theorem Readers.PassesFrom.passing {k : Readers} {c : Cursor} {ts : List Token} {pos : Nat}
    (hk : k.PassesFrom c ts pos) (h : c.At ts pos) : k.Passing c := by
  rintro c' ⟨us, ids, hpass⟩ hne
  have hcomes := h.comes hpass
  refine hk c' _ hcomes ?_
  by_contra hge
  rw [hcomes.stands.rest, List.drop_of_length_le (Nat.not_lt.1 hge)] at hne
  exact hne rfl

/-- Cursors that parsers may have left, one after the other, from the start of a token list on. -/
inductive Reached (ts : List Token) : Cursor → Prop
  | start : Reached ts (Cursor.start ts)
  | parse {α : Type} (r : Construct α) {c : Cursor} (h : Reached ts c) :
      Reached ts (r.parser.run c).2

theorem Construct.comes {α : Type} (r : Construct α) {ts : List Token} {pos : Nat} {c : Cursor}
    (h : c.At ts pos) : ∃ pos', c.Comes ts pos (r.parser.run c).2 pos' ∧
      ∀ a, (r.parser.run c).1 = .ok a → r.moves = true → pos < pos' := by
  obtain ⟨us, ids, hpass, hvalue⟩ := (r.meets c).reads
  refine ⟨pos + us.length, h.comes hpass, fun a ha hmoves => ?_⟩
  have hne := Construct.moves_of_description (hvalue a ha) hmoves
  exact Nat.lt_add_of_pos_right (List.length_pos_iff.2 hne)

theorem Reached.stands {ts : List Token} {c : Cursor} (h : Reached ts c) :
    ∃ pos, c.At ts pos ∧ c.lastStop = endBefore ts pos := by
  induction h with
  | start => exact ⟨0, ⟨Nat.zero_le _, rfl⟩, rfl⟩
  | parse r _ ih =>
    obtain ⟨pos, hstands, hstop⟩ := ih
    obtain ⟨pos', hcomes, -⟩ := r.comes hstands
    exact ⟨pos', hcomes.stands, hcomes.lastStop hstop⟩

theorem calls_complete (n : Nat) (c : Cursor) (found : Option TokenKind) :
    .error (.notAtEnd found) ∉ calls n c := by
  induction n generalizing c with
  | zero => exact List.not_mem_nil
  | succ n ih =>
    rw [calls, List.mem_cons, not_or]
    exact ⟨fun h => (Construct.meets .program c).complete found h.symm, ih _⟩

end Parser

/-- At every place of every token list, each parser of the language ends, its calls being no deeper
than `r.depth c`: the grammar unrolled to so many levels gives the same, whatever its readers do
below and wherever no token is left to be passed. The parser comes to a place that is not before the
first one and not behind the end, and to a later one if it gives a construct that has tokens. The
last end offset is always the end of the token before. No parser complains that the end has not been
reached, however often programs are read. -/
theorem parsing_terminates {α : Type} (r : Parser.Construct α) {ts : List Token} {pos : Nat}
    {c : Cursor} (h : c.At ts pos) :
    (∀ k : Parser.Readers, k.PassesFrom c ts pos → ∀ n, r.depth c ≤ n →
      ((k.unrolled n).parse r).run c = r.parser.run c) ∧
    (∃ pos', c.Comes ts pos (r.parser.run c).2 pos' ∧
      ∀ a, (r.parser.run c).1 = .ok a → r.moves = true → pos < pos') ∧
    (∀ c', Parser.Reached ts c' → ∃ pos', c'.At ts pos' ∧ c'.lastStop = endBefore ts pos') ∧
    (∀ found, (r.parser.run c).1 ≠ .error (.notAtEnd found)) ∧
    ∀ n found, .error (.notAtEnd found) ∉ Parser.calls n c := by
  refine ⟨fun k hk n hdepth => ?_, r.comes h, fun _ => Parser.Reached.stands,
    (r.meets c).complete, fun n => Parser.calls_complete n c⟩
  have hagree := ((hk.passing h).agree_limit n).parse r c ⟨[], [], .refl c⟩ hdepth
  rw [hagree.same, Parser.Readers.limit_parse]

/-- The text `write 1 + (` ends within a parenthesis. -/
def cutTokens : List Token :=
  [⟨.keyword .write, 0, 5, "write"⟩, ⟨.int 1, 6, 7, "1"⟩, ⟨.symbol .plus, 8, 9, "+"⟩,
    ⟨.symbol .lparen, 10, 11, "("⟩]

/-- Behind the first of these tokens. -/
def cutCursor : Cursor := ⟨cutTokens.drop 1, 5, 0⟩

theorem cutTokens_parsing :
    cutCursor.At cutTokens 1 ∧
    (Parser.expr.run cutCursor).1 = .error .unexpectedEnd ∧
    (Parser.expr.run cutCursor).2 = ⟨[], 11, 1⟩ ∧
    (∀ k : Parser.Readers, k.PassesFrom cutCursor cutTokens 1 → ∀ n, 49 ≤ n →
      ((k.unrolled n).parse .expr).run cutCursor = Parser.expr.run cutCursor) ∧
    (∃ pos', cutCursor.Comes cutTokens 1 (Parser.expr.run cutCursor).2 pos' ∧
      ∀ e, (Parser.expr.run cutCursor).1 = .ok e →
        (Parser.Construct.expr).moves = true → 1 < pos') ∧
    (∀ c', Parser.Reached cutTokens c' →
      ∃ pos', c'.At cutTokens pos' ∧ c'.lastStop = endBefore cutTokens pos') ∧
    (∀ found, (Parser.expr.run cutCursor).1 ≠ .error (.notAtEnd found)) ∧
    ∀ n found, .error (.notAtEnd found) ∉ Parser.calls n cutCursor := by
  have hstands : cutCursor.At cutTokens 1 := ⟨by decide, rfl⟩
  exact ⟨hstands, rfl, rfl, parsing_terminates .expr hstands⟩

end Asl
