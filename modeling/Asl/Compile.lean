import Asl.Session
import Asl.Token.Lexer
import Asl.Tree.Grammar

/-!
# From source text to code

A source text is split into tokens, read as a program, analysed in a session of its own, and, if
there is nothing to report, lowered to code. The first stage that fails decides the outcome.
-/
namespace Asl

inductive CompileError
  | lex (e : LexError)
  | parse (e : ParseError)
  | analysis (e : AnalysisError)
  | lower (e : LowerError)
  | diagnosed (ds : List Diagnostic)
deriving DecidableEq, Repr

def CompileError.message : CompileError → String
  | .lex e => e.message
  | .parse e => e.message
  | .analysis e => e.message
  | .lower e => e.message
  | .diagnosed ds => toString ds.length ++ " semantic error(s)"

def parse (source : String) : Except CompileError Program := do
  let ts ← (tokens source).mapError .lex
  (Program.ofTokens ts).mapError .parse

def Program.analyze (p : Program) : Except CompileError Session :=
  match (Pass.analyze p).run .fresh with
  | (.ok (), s) => .ok s
  | (.error e, _) => .error (.analysis e)

def Session.lower (s : Session) (p : Program) : Except CompileError Assembly :=
  match s.diagnostics with
  | [] => ((Pass.lowerProgram p).run s).1.mapError .lower
  | ds => .error (.diagnosed ds)

def check (source : String) : Except CompileError (Program × Session) := do
  let p ← parse source
  let s ← p.analyze
  return (p, s)

def compile (source : String) : Except CompileError Assembly := do
  let (p, s) ← check source
  s.lower p

end Asl
