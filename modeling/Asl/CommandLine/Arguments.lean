/-!
# Arguments of the command

The arguments are read from the left, by the rules that are common to commands. A request for help
or for the version is met where it is read, and a bad argument is refused there; whether the options
go together is looked at when all have been read. What the command then does is no matter of this
module.
-/
namespace Asl.CommandLine

inductive Mode
  | tokens | program | nothing | code | sample
deriving DecidableEq, Repr

inductive Flag
  | mode (m : Mode)
  | verbose
deriving DecidableEq, Repr

inductive Entry
  | missing
  | directory
  | denied
  | file (content : ByteArray)

abbrev Files := String → Entry

def Entry.isMissing : Entry → Bool
  | .missing => true
  | _ => false

structure Options where
  flags : List Flag
  size : Option Nat
  path : Option String
deriving DecidableEq, Repr

def Options.empty : Options := ⟨[], none, none⟩

inductive Request
  | refused
  | help
  | version
  | run (o : Options)
deriving DecidableEq, Repr

def longFlag? : String → Option Flag
  | "lex" => some (.mode .tokens)
  | "parse" => some (.mode .program)
  | "check" => some (.mode .nothing)
  | "tac" => some (.mode .code)
  | "fuzz" => some (.mode .sample)
  | "verbose" => some .verbose
  | _ => none

def shortFlag? : Char → Option Flag
  | 'l' => some (.mode .tokens)
  | 'p' => some (.mode .program)
  | 'c' => some (.mode .nothing)
  | 't' => some (.mode .code)
  | 'v' => some .verbose
  | _ => none

def Options.addFlag? (o : Options) (f : Flag) : Option Options :=
  if f ∈ o.flags then none else some { o with flags := o.flags ++ [f] }

/-- A size is a number of 64 bits, which may have a plus in front. -/
def sizeOf? (s : String) : Option Nat :=
  let digits := match s.toList with
    | '+' :: ds => ds
    | ds => ds
  let n := Nat.ofDigitChars 10 digits 0
  if digits ≠ [] ∧ digits.all Char.isDigit ∧ n < UInt64.size then some n else none

def Options.addSize? (o : Options) (s : String) : Option Options :=
  if o.size.isSome then none else (sizeOf? s).map fun n => { o with size := some n }

def Options.addPath? (o : Options) (files : Files) (path : String) : Option Options :=
  if o.path.isSome || (files path).isMissing then none else some { o with path := some path }

def readShort (o : Options) : List Char → Request
  | [] => .run o
  | 'h' :: _ => .help
  | 'V' :: _ => .version
  | c :: cs =>
      match (shortFlag? c).bind o.addFlag? with
      | some o => readShort o cs
      | none => .refused

/-- Whether an argument stands for itself: it has no hyphen in front, or nothing behind it. -/
def isPlain (arg : String) : Bool :=
  match arg.toList with
  | '-' :: _ :: _ => false
  | _ => true

def readPaths (files : Files) (o : Options) : List String → Request
  | [] => .run o
  | arg :: args =>
      match o.addPath? files arg with
      | some o => readPaths files o args
      | none => .refused

def readArgs (files : Files) (o : Options) : List String → Request
  | [] => .run o
  | "--" :: args => readPaths files o args
  | "--help" :: _ => .help
  | "--version" :: _ => .version
  | ["--size"] => .refused
  | "--size" :: value :: args =>
      match if isPlain value then o.addSize? value else none with
      | some o => readArgs files o args
      | none => .refused
  | arg :: args =>
      match arg.toList with
      | '-' :: '-' :: 's' :: 'i' :: 'z' :: 'e' :: '=' :: value =>
          match o.addSize? (String.ofList value) with
          | some o => readArgs files o args
          | none => .refused
      | '-' :: '-' :: name =>
          match (longFlag? (String.ofList name)).bind o.addFlag? with
          | some o => readArgs files o args
          | none => .refused
      | '-' :: c :: cs =>
          match readShort o (c :: cs) with
          | .run o => readArgs files o args
          | request => request
      | _ =>
          match o.addPath? files arg with
          | some o => readArgs files o args
          | none => .refused

def Options.modes (o : Options) : List Mode :=
  o.flags.filterMap fun
    | .mode m => some m
    | .verbose => none

def Options.mode (o : Options) : Mode := o.modes.headD .code

/-- At most one mode, a path unless for samples, and a size only with a mode that is given: it asks
for samples, but not where another mode rules them out, and is then without effect. -/
def Options.agree (o : Options) : Bool :=
  o.modes.length ≤ 1 && (o.mode = .sample || o.path.isSome) &&
    (o.size.isNone || !o.modes.isEmpty)

def request (files : Files) (args : List String) : Request :=
  match readArgs files .empty args with
  | .run o => if o.agree then .run o else .refused
  | r => r

def versionText : String := "aslc 0.1.0\n"

def helpText : String :=
  "Semantic analysis and three-address code generation for the ASL teaching language\n\n" ++
    "Usage: aslc [OPTIONS] [INPUT_PATH]\n\n" ++
    "Options:\n" ++
    "  -l, --lex          Print the token stream\n" ++
    "  -p, --parse        Print the parsed program back as source\n" ++
    "  -c, --check        Stop after type checking\n" ++
    "  -t, --tac          Print three-address code (the default)\n" ++
    "      --fuzz         Print a random well-typed program\n" ++
    "      --size <SIZE>  Size hint for --fuzz [default: 10]\n" ++
    "  -v, --verbose\n" ++
    "  -h, --help         Print help\n" ++
    "  -V, --version      Print version\n"

def refusalText : String := "error: invalid command line\n\nFor more information, try '--help'.\n"

end Asl.CommandLine
