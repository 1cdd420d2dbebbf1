import Asl.Code.Listing
import Asl.CommandLine.Arguments
import Asl.Compile
import Asl.Sample.Program
import Asl.Text.Position
import Asl.Tree.Printer

/-!
# The command line

A run of the command is a function of its arguments, of the files that can be seen, and of a tape of
bytes for sample programs. A command line that is refused does nothing.
-/
namespace Asl.CommandLine

structure Outcome where
  exitCode : Nat
  stdout : String
  stderr : String
deriving DecidableEq, Repr

def Outcome.success (stdout : String) : Outcome := ⟨0, stdout, ""⟩

def Outcome.failure (message : String) : Outcome := ⟨1, "", "Error: " ++ message ++ "\n"⟩

def diagnosticLine (source : String) (d : Diagnostic) : String :=
  (Text.Position.ofOffset source d.mark.start).text ++ ": " ++ d.category.text ++ ": " ++
    d.message ++ "\n"

def diagnosed (path source : String) (ds : List Diagnostic) : Outcome :=
  ⟨1, "", String.join (ds.map (diagnosticLine source)) ++ path ++ ": " ++ toString ds.length ++
    " error(s), no code generated\n"⟩

def orFailure (r : Except CompileError Outcome) : Outcome :=
  match r with
  | .ok o => o
  | .error e => .failure e.message

def translate (path source : String) : Mode → Outcome
  | .tokens => orFailure do
      let ts ← (tokens source).mapError .lex
      return .success (String.join (ts.map fun t => t.kind.description ++ "\n"))
  | .program => orFailure do
      return .success (← parse source).text
  | mode => orFailure do
      let p ← parse source
      let s ← p.analyze
      if !s.diagnostics.isEmpty then return diagnosed path source s.diagnostics
      else if mode = .nothing then return .success ""
      else return .success (← s.lower p).text

def unreadable (path cause : String) : Outcome :=
  .failure ("failed to read " ++ path ++ "\n\nCaused by:\n    " ++ cause)

def readSource (files : Files) (path : String) (use : String → Outcome) : Outcome :=
  match files path with
  | .missing => unreadable path "No such file or directory (os error 2)"
  | .directory => unreadable path "Is a directory (os error 21)"
  | .denied => unreadable path "Permission denied (os error 13)"
  | .file content =>
      match String.fromUTF8? content with
      | some source => use source
      | none => unreadable path "stream did not contain valid UTF-8"

def defaultSize : Nat := 10

def Options.run (o : Options) (files : Files) (tape : List UInt8) : Outcome :=
  match o.mode, o.path with
  | .sample, _ => .success (Sample.text (o.size.getD defaultSize) tape)
  | mode, some path => readSource files path fun source => translate path source mode
  | _, none => .failure "no input file given"

def Request.outcome (files : Files) (tape : List UInt8) : Request → Outcome
  | .refused => ⟨2, "", refusalText⟩
  | .help => .success helpText
  | .version => .success versionText
  | .run o => o.run files tape

def run (args : List String) (files : Files) (tape : List UInt8) : Outcome :=
  (request files args).outcome files tape

end Asl.CommandLine
