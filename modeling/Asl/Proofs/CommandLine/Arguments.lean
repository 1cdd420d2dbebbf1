import Asl.CommandLine.Arguments
import Mathlib.Data.List.Basic

/-!
# Command lines that ask for a mode

A command line with the path of a file asks for the file, and one with the flag of a mode in front
of the path asks for the mode as well.
-/
namespace Asl.CommandLine

variable {files : Files} {path source : String} {o : Options}

def Holds (files : Files) (path source : String) : Prop :=
  ∃ content, files path = .file content ∧ String.fromUTF8? content = some source

/-- A command line that asks for some modes and names a path. -/
def Asks (files : Files) (args : List String) (modes : List Mode) (path : String) : Prop :=
  ∃ o, request files args = .run o ∧ o.modes = modes ∧ o.path = some path

def modeFlags : Mode → List String
  | .tokens => ["--lex", "-l"]
  | .program => ["--parse", "-p"]
  | .nothing => ["--check", "-c"]
  | .code => ["--tac", "-t"]
  | .sample => ["--fuzz"]

theorem readArgs_modeFlag {m : Mode} {flag : String} (h : flag ∈ modeFlags m) (args : List String) :
    readArgs files .empty (flag :: args) = readArgs files ⟨[.mode m], none, none⟩ args := by
  cases m with
  | sample =>
    rw [List.mem_singleton.1 h]
    rfl
  | _ => rcases List.mem_pair.1 h with rfl | rfl <;> rfl

theorem readArgs_plain (h : isPlain path = true) (args : List String) :
    readArgs files o (path :: args) = match o.addPath? files path with
      | some o => readArgs files o args
      | none => .refused := by
  have hname {name : List Char} (heq : path.toList = '-' :: '-' :: name) : False := by
    rw [isPlain, heq] at h
    cases h
  rw [readArgs.eq_def]
  split
  · rename_i heq
    cases heq
  all_goals
    rename_i heq
    cases heq
  · exact (hname rfl).elim
  · exact (hname rfl).elim
  · exact (hname rfl).elim
  · exact (hname rfl).elim
  · exact (hname rfl).elim
  · split
    · rename_i heq
      exact (hname heq).elim
    · rename_i heq
      exact (hname heq).elim
    · rename_i heq
      rw [isPlain, heq] at h
      cases h
    · rfl

theorem Holds.addPath?_eq (h : Holds files path source) (ho : o.path = none) :
    o.addPath? files path = some { o with path := some path } := by
  obtain ⟨content, hcontent, -⟩ := h
  rw [Options.addPath?, ho, hcontent]
  rfl

theorem Holds.asks_path (h : Holds files path source) (hplain : isPlain path = true) :
    Asks files [path] [] path := by
  refine ⟨⟨[], none, some path⟩, ?_, rfl, rfl⟩
  rw [request, readArgs_plain hplain, h.addPath?_eq rfl]
  rfl

theorem Holds.asks_mode (h : Holds files path source) (hplain : isPlain path = true) {m : Mode}
    {flag : String} (hflag : flag ∈ modeFlags m) : Asks files [flag, path] [m] path := by
  refine ⟨⟨[.mode m], none, some path⟩, ?_, rfl, rfl⟩
  rw [request, readArgs_modeFlag hflag, readArgs_plain hplain, h.addPath?_eq rfl]
  cases m <;> rfl

end Asl.CommandLine
