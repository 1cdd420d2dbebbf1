import Asl.Text.Position
import Asl.Token.Rule

/-!
# From text to tokens

The lexer repeats one step: the rule that reaches farthest takes its characters off the front, as a
token or as a blank or comment. It stops at the first place where no rule matches, or where a
literal has no value; the tokens before that place are then not reported.
-/
namespace Asl

inductive LexError
  | unexpected (lexeme : String) (offset : Nat)
  | integerOverflow (lexeme : String)
  | invalidFloat (lexeme : String)
deriving DecidableEq, Repr

def LexError.message : LexError → String
  | .unexpected lexeme offset =>
      "unrecognized input `" ++ lexeme ++ "` at byte " ++ toString offset
  | .integerOverflow lexeme => "integer literal `" ++ lexeme ++ "` does not fit in 64 bits"
  | .invalidFloat lexeme => "invalid float literal `" ++ lexeme ++ "`"

def unquote (cs : List Char) : String := String.ofList (cs.drop 1).dropLast

def decimalOf (cs : List Char) : Decimal :=
  Decimal.ofParts (cs.takeWhile isDigit) ((cs.dropWhile isDigit).drop 1)

def wordKind (cs : List Char) : TokenKind :=
  if cs = "true".toList then .bool true
  else if cs = "false".toList then .bool false
  else match Keyword.ofWord? cs with
    | some k => .keyword k
    | none => .ident (String.ofList cs)

/-- The kind of a lexeme of a rule; the error says that a literal has no value. -/
def Rule.kind (lexeme : List Char) : Rule → Except LexError TokenKind
  | .symbol s => .ok (.symbol s)
  | .integer =>
      let n := Nat.ofDigitChars 10 lexeme 0
      if n < integerBound then .ok (.int n) else .error (.integerOverflow (String.ofList lexeme))
  | .decimal =>
      match Binary64.ofDecimal false (decimalOf lexeme) with
      | .finite negative rank => .ok (.float (.finite negative rank))
      | _ => .error (.invalidFloat (String.ofList lexeme))
  | .character => .ok (.char (unquote lexeme))
  | .text => .ok (.text (unquote lexeme))
  | _ => .ok (wordKind lexeme)

/-- What a message shows of a place where no rule matches: an opening double quote with the units
that follow it, and otherwise one character. -/
def unmatched : List Char → List Char
  | '"' :: cs => '"' :: cs.take (unitsLength cs)
  | cs => cs.take 1

theorem unmatched_cons {c : Char} (hc : c ≠ '"') (cs : List Char) : unmatched (c :: cs) = [c] := by
  unfold unmatched
  split
  · rename_i heq
    exact absurd (List.cons.inj heq).1 hc
  · rfl

def tokensFrom (offset : Nat) (cs : List Char) : Except LexError (List Token) :=
  if cs = [] then .ok []
  else match _found : Rule.farthest cs Rule.all with
    | none => .error (.unexpected (String.ofList (unmatched cs)) offset)
    | some (rule, n) =>
        let lexeme := cs.take n
        let stop := offset + Text.byteLength lexeme
        if rule.isSkipped then tokensFrom stop (cs.drop n)
        else do
          let kind ← rule.kind lexeme
          let tokens ← tokensFrom stop (cs.drop n)
          return ⟨kind, offset, stop, String.ofList lexeme⟩ :: tokens
termination_by cs.length
decreasing_by
  all_goals
    have hn : 0 < n := Rule.farthest_pos _found
    have hc : 0 < cs.length := List.length_pos_iff.2 ‹cs ≠ []›
    simp only [List.length_drop]
    omega

def tokens (source : String) : Except LexError (List Token) := tokensFrom 0 source.toList

end Asl
