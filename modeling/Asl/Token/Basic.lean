import Asl.Binary64.Text
import Asl.Text.Quoted

/-!
# Tokens

A token is what the text of a program is made of once blanks and comments are left out. Its kind is
all that the grammar looks at; its offsets and its text are for messages. Every kind has a spelling,
the text that it has in a program, and a description, the text that it has in a message. The texts
of character and string literals are kept as they stand between their quotes.
-/
namespace Asl

inductive Keyword
  | and | or | not
  | func | endfunc | var | array | of
  | int | float | bool | char
  | if | then | else | endif
  | while | do | endwhile
  | for | in | range | endfor
  | read | write | return | max
deriving DecidableEq, Repr

namespace Keyword

def all : List Keyword :=
  [.and, .or, .not, .func, .endfunc, .var, .array, .of, .int, .float, .bool, .char, .if, .then,
    .else, .endif, .while, .do, .endwhile, .for, .in, .range, .endfor, .read, .write, .return, .max]

def spelling : Keyword → String
  | .and => "and" | .or => "or" | .not => "not"
  | .func => "func" | .endfunc => "endfunc" | .var => "var" | .array => "array" | .of => "of"
  | .int => "int" | .float => "float" | .bool => "bool" | .char => "char"
  | .if => "if" | .then => "then" | .else => "else" | .endif => "endif"
  | .while => "while" | .do => "do" | .endwhile => "endwhile"
  | .for => "for" | .in => "in" | .range => "range" | .endfor => "endfor"
  | .read => "read" | .write => "write" | .return => "return" | .max => "max"

def description : Keyword → String
  | .and => "And" | .or => "Or" | .not => "Not"
  | .func => "Func" | .endfunc => "EndFunc" | .var => "Var" | .array => "Array" | .of => "Of"
  | .int => "Int" | .float => "Float" | .bool => "BoolType" | .char => "Char"
  | .if => "If" | .then => "Then" | .else => "Else" | .endif => "EndIf"
  | .while => "While" | .do => "Do" | .endwhile => "EndWhile"
  | .for => "For" | .in => "In" | .range => "Range" | .endfor => "EndFor"
  | .read => "Read" | .write => "Write" | .return => "Return" | .max => "Max"

def ofWord? (cs : List Char) : Option Keyword := all.find? fun k => k.spelling.toList == cs

theorem ofWord?_spelling (k : Keyword) : ofWord? k.spelling.toList = some k := by
  cases k <;> decide +kernel

end Keyword

inductive Symbol
  | lbracket | rbracket | lparen | rparen
  | assign | colon | comma | semicolon
  | plus | minus | star | slash | percent
  | equal | notEqual | less | lessEqual | greater | greaterEqual
deriving DecidableEq, Repr

namespace Symbol

def all : List Symbol :=
  [.lbracket, .rbracket, .lparen, .rparen, .assign, .colon, .comma, .semicolon, .plus, .minus,
    .star, .slash, .percent, .equal, .notEqual, .less, .lessEqual, .greater, .greaterEqual]

theorem mem_all (s : Symbol) : s ∈ all := by cases s <;> decide

def spelling : Symbol → String
  | .lbracket => "[" | .rbracket => "]" | .lparen => "(" | .rparen => ")"
  | .assign => ":=" | .colon => ":" | .comma => "," | .semicolon => ";"
  | .plus => "+" | .minus => "-" | .star => "*" | .slash => "/" | .percent => "%"
  | .equal => "==" | .notEqual => "!="
  | .less => "<" | .lessEqual => "<=" | .greater => ">" | .greaterEqual => ">="

def description : Symbol → String
  | .lbracket => "LBracket" | .rbracket => "RBracket" | .lparen => "LParen" | .rparen => "RParen"
  | .assign => "Assign" | .colon => "Colon" | .comma => "Comma" | .semicolon => "Semicolon"
  | .plus => "Plus" | .minus => "Minus" | .star => "Star" | .slash => "Slash"
  | .percent => "Percent" | .equal => "DoubleEqual" | .notEqual => "NotEqual"
  | .less => "LessThan" | .lessEqual => "LessThanEqual"
  | .greater => "GreaterThan" | .greaterEqual => "GreaterThanEqual"

end Symbol

def integerBound : Nat := 0x8000000000000000

inductive TokenKind
  | keyword (k : Keyword)
  | symbol (s : Symbol)
  | bool (b : Bool)
  | int (n : Int)
  | float (x : Binary64)
  | char (raw : String)
  | text (raw : String)
  | ident (name : String)
deriving DecidableEq, Repr

namespace TokenKind

def spelling : TokenKind → String
  | .keyword k => k.spelling
  | .symbol s => s.spelling
  | .bool b => if b then "true" else "false"
  | .int n => toString n
  | .float x => x.text
  | .char raw => "'" ++ raw ++ "'"
  | .text raw => "\"" ++ raw ++ "\""
  | .ident name => name

def description : TokenKind → String
  | .keyword k => k.description
  | .symbol s => s.description
  | .bool b => "Bool(" ++ (if b then "true" else "false") ++ ")"
  | .int n => "IntLiteral(" ++ toString n ++ ")"
  | .float x => "FloatLiteral(" ++ x.message ++ ")"
  | .char raw => "CharLiteral(" ++ Text.quoted raw ++ ")"
  | .text raw => "StringLiteral(" ++ Text.quoted raw ++ ")"
  | .ident name => "Identifier(" ++ Text.quoted name ++ ")"

def describe? : Option TokenKind → String
  | some kind => "Some(" ++ kind.description ++ ")"
  | none => "None"

end TokenKind

structure Token where
  kind : TokenKind
  start : Nat
  stop : Nat
  lexeme : String
deriving DecidableEq, Repr

end Asl
