import Asl.Token.Basic

/-!
# Lexical rules

Each rule is told how far it reaches: the length of the longest front part of a text that the rule
matches, or zero if it matches none. The lexer takes the rule that reaches farthest, and the first
of the rules that reach equally far; keywords are words that the payload of a word sorts out.
-/
namespace Asl

def isBlank (c : Char) : Bool := c == ' ' || c == '\t' || c == '\r' || c == '\n' || c == '\x0c'

def isDigit (c : Char) : Bool := '0' ≤ c && c ≤ '9'

def isLetter (c : Char) : Bool := ('a' ≤ c && c ≤ 'z') || ('A' ≤ c && c ≤ 'Z')

def isWordChar (c : Char) : Bool := isLetter c || isDigit c || c == '_'

/-- The length of the longest front part whose characters all satisfy a test. -/
def runLength (p : Char → Bool) (cs : List Char) : Nat := (cs.takeWhile p).length

/-- The number of characters of the units of a string literal at the front of a text. A unit is a
character other than the quote, the backslash and the line feed, or a backslash with one character
other than the line feed. -/
def unitsLength : List Char → Nat
  | [] => 0
  | c :: cs =>
      if c = '"' || c = '\n' then 0
      else if c = '\\' then
        match cs with
        | [] => 0
        | d :: ds => if d = '\n' then 0 else unitsLength ds + 2
      else unitsLength cs + 1

theorem unitsLength_le (cs : List Char) : unitsLength cs ≤ cs.length := by
  fun_induction unitsLength cs <;> simp only [List.length_cons, List.length_nil] <;> omega

inductive Rule
  | blank | comment | word | integer | decimal | character | text | symbol (s : Symbol)
deriving DecidableEq, Repr

namespace Rule

def all : List Rule :=
  [.blank, .comment, .word, .integer, .decimal, .character, .text] ++ Symbol.all.map .symbol

theorem mem_all (r : Rule) : r ∈ all := by
  cases r with
  | symbol s => exact List.mem_append_right _ (List.mem_map_of_mem (Symbol.mem_all s))
  | _ => decide

def reach : Rule → List Char → Nat
  | .blank, cs => runLength isBlank cs
  | .comment, '/' :: '/' :: cs => 2 + runLength (· != '\n') cs
  | .word, c :: cs => if isLetter c then 1 + runLength isWordChar cs else 0
  | .integer, cs => runLength isDigit cs
  | .decimal, cs =>
      let whole := runLength isDigit cs
      match cs.drop whole with
      | '.' :: ds =>
          let fraction := runLength isDigit ds
          if whole = 0 || fraction = 0 then 0 else whole + 1 + fraction
      | _ => 0
  | .character, '\'' :: '\\' :: c :: '\'' :: _ => if c = '\n' then 0 else 4
  | .character, '\'' :: c :: '\'' :: _ => if c = '\'' || c = '\\' || c = '\n' then 0 else 3
  | .text, '"' :: cs =>
      match cs.drop (unitsLength cs) with
      | '"' :: _ => unitsLength cs + 2
      | _ => 0
  | .symbol s, cs => if s.spelling.toList.isPrefixOf cs then s.spelling.length else 0
  | _, _ => 0

/-- Blanks and comments make no token. -/
def isSkipped : Rule → Bool
  | .blank | .comment => true
  | _ => false

/-- The rule that reaches farthest, with its reach; the earlier of two that reach equally far. -/
def farthest (cs : List Char) : List Rule → Option (Rule × Nat)
  | [] => none
  | r :: rules =>
      match farthest cs rules with
      | some (best, n) =>
          if n ≤ r.reach cs && r.reach cs ≠ 0 then some (r, r.reach cs) else some (best, n)
      | none => if r.reach cs = 0 then none else some (r, r.reach cs)

theorem farthest_pos {cs : List Char} {rules : List Rule} {r : Rule} {n : Nat}
    (h : farthest cs rules = some (r, n)) : 0 < n := by
  induction rules generalizing r n with
  | nil => cases h
  | cons s rules ih =>
    simp only [farthest] at h
    split at h
    · rename_i best m hm
      split at h <;> cases h
      · rename_i hs
        simp only [Bool.and_eq_true, decide_eq_true_eq] at hs
        omega
      · exact ih hm
    · split at h <;> cases h
      omega

end Rule

end Asl
