import Asl.Proofs.Tree.Blamed
import Asl.Proofs.Tree.Parsed
import Asl.Proofs.Tree.Readback

/-!
# Where a syntax error is found

A failure to read a program is found at the first token that no program can have there. The tokens
before it begin some program, those up to it begin none; the parser has not passed a token behind
it; and whatever follows it, reading fails in the same way.
-/
namespace Asl

def Token.unplaced (k : TokenKind) : Token := ⟨k, 0, 0, k.spelling⟩

theorem Program.exists_of_derives {seen : List Token} {ks : List TokenKind}
    (h : Derives .program (seen.map Token.kind ++ ks)) :
    ∃ us p, seen <+: us ∧ Program.ofTokens us = .ok p := by
  obtain ⟨q, hnested, hformed, hkinds⟩ := h.flattens
  have hus : q.kinds = (seen ++ ks.map Token.unplaced).map Token.kind := by
    rw [hkinds, List.map_append, List.map_map]
    congr 1
    exact (List.map_id ks).symm
  obtain ⟨p, hp⟩ := (Program.ofTokens_of_kinds hnested hus).2 hformed
  exact ⟨_, p, List.prefix_append _ _, hp⟩

theorem Cursor.rest_eq_drop {ts later : List Token} {k : Nat} {c : Cursor}
    (hpassed : (Parser.program.run (Cursor.start ts)).2 = c) (hlater : ts.length = k + later.length)
    (hlength : later.length ≤ c.rest.length + 1) : ∃ j ≤ k + 1, c.rest = ts.drop j := by
  obtain ⟨passed, ids, hpass, -⟩ := Parser.reads_program (Cursor.start ts)
  have hrest : ts = passed ++ c.rest := hpassed ▸ hpass.rest
  have hsum := congrArg List.length hrest
  rw [List.length_append] at hsum
  refine ⟨passed.length, by omega, ?_⟩
  rw [hrest, List.drop_left]

/-- The token at an index is the first one that no program can have there, and an error that leaves
some tokens is due to it. The tokens before it begin a program, those up to it begin none; none
behind it has been passed; and whatever follows it, the error is the same. If all tokens together
begin a program, the index is that of their end. -/
structure Offence (ts : List Token) (k : Nat) (e : ParseError) (rest : List Token) : Prop where
  bounded : k ≤ ts.length
  front : ∃ us p, ts.take k <+: us ∧ Program.ofTokens us = .ok p
  first : k < ts.length → ∀ us p, ts.take (k + 1) <+: us → Program.ofTokens us ≠ .ok p
  passed : ∃ j ≤ k + 1, rest = ts.drop j
  alike : k < ts.length → ∀ us, ts.take (k + 1) <+: us → Program.ofTokens us = .error e

theorem Offence.le {ts rest rest' : List Token} {k k' : Nat} {e e' : ParseError}
    (h : Offence ts k e rest) (h' : Offence ts k' e' rest') : k' ≤ k := by
  by_contra hlt
  have hlt := Nat.lt_of_not_le hlt
  obtain ⟨us, p, hus, hp⟩ := h'.front
  have hfront : ts.take (k + 1) <+: ts.take k' := List.take_prefix_take_left hlt
  exact h.first (Nat.lt_of_lt_of_le hlt h'.bounded) us p (hfront.trans hus) hp

/-- Reading fails at the one token that offends. -/
theorem Program.fails_at_first_offence {ts : List Token} {e : ParseError} {c : Cursor}
    (h : Parser.program.run (Cursor.start ts) = (.error e, c)) : ∃! k, Offence ts k e c.rest := by
  obtain ⟨seen, later, hts, -, ⟨ks, hks⟩, hlength, hsame⟩ := Parser.settles_program.failed e c h
  have hsplit : ts = seen ++ later := hts
  have hcount : ts.length = seen.length + later.length := by rw [hsplit, List.length_append]
  have halike : seen.length < ts.length → ∀ us, ts.take (seen.length + 1) <+: us →
      Program.ofTokens us = .error e := by
    rintro hlt us ⟨more, rfl⟩
    cases later with
    | nil =>
      rw [hcount, List.length_nil] at hlt
      exact absurd hlt (Nat.lt_irrefl _)
    | cons t later =>
      have htake : ts.take (seen.length + 1) = seen ++ [t] := by
        rw [hsplit, List.take_length_add_append]
        rfl
      rw [htake, List.append_assoc]
      exact hsame ([t] ++ more) rfl
  have hoffence : Offence ts seen.length e c.rest := by
    refine ⟨by omega, ?_, fun hlt us p hus hp => ?_, ?_, halike⟩
    · rw [hsplit, List.take_left]
      exact Program.exists_of_derives hks
    · rw [halike hlt us hus] at hp
      cases hp
    · exact Cursor.rest_eq_drop (congrArg Prod.snd h) hcount hlength
  exact ⟨seen.length, hoffence, fun k hk => Nat.le_antisymm (hoffence.le hk) (hk.le hoffence)⟩

/-- A function that writes the maximum of nothing. -/
def emptyMaximum : List Token :=
  [.keyword .func, .ident "main", .symbol .lparen, .symbol .rparen, .keyword .write, .keyword .max,
    .symbol .lparen, .symbol .rparen, .symbol .semicolon, .keyword .endfunc].map Token.unplaced

theorem emptyMaximum_fails :
    Parser.program.run (Cursor.start emptyMaximum) =
        (.error (.expectedOperand (.symbol .rparen)), ⟨emptyMaximum.drop 8, 0, 3⟩) ∧
      ∃! k, Offence emptyMaximum k (.expectedOperand (.symbol .rparen)) (emptyMaximum.drop 8) := by
  have hrun : Parser.program.run (Cursor.start emptyMaximum) =
      (.error (.expectedOperand (.symbol .rparen)), ⟨emptyMaximum.drop 8, 0, 3⟩) := rfl
  exact ⟨hrun, Program.fails_at_first_offence hrun⟩

end Asl
