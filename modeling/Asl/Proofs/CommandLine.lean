import Asl.CommandLine
import Asl.Proofs.CommandLine.Arguments
import Asl.Proofs.Printing

/-!
# What the command does

A run of the command on a file with a source text does what the stages of the compiler do with that
text: it succeeds exactly where they do, then prints the text of what they give, and otherwise
prints nothing to the standard output. A run that only checks a program accepts just the programs
that give code, though it makes none, and a program that was printed stands for the one in the file.
-/
namespace Asl.CommandLine

variable {files : Files} {path source : String}

theorem Asks.run_eq {args : List String} {modes : List Mode} (h : Asks files args modes path)
    (hholds : Holds files path source) (hsample : modes.headD .code ≠ .sample)
    (tape : List UInt8) : run args files tape = translate path source (modes.headD .code) := by
  obtain ⟨o, hrequest, rfl, hpath⟩ := h
  obtain ⟨content, hcontent, hsource⟩ := hholds
  have hrun : run args files tape = o.run files tape := by rw [run, hrequest, Request.outcome]
  have hread (mode : Mode) : readSource files path (translate path · mode) =
      translate path source mode := by
    simp only [readSource, hcontent, hsource]
  rw [hrun, Options.run, hpath]
  change o.mode ≠ .sample at hsample
  change _ = translate path source o.mode
  cases hmode : o.mode with
  | sample => exact absurd hmode hsample
  | _ => exact hread _

/-- An outcome that succeeds where there is a text, and then prints it; where there is none, it
fails and prints nothing to the standard output. -/
def Outcome.Prints (out : Outcome) (text : Option String) : Prop :=
  out.exitCode = (if text.isSome then 0 else 1) ∧ out.stdout = text.getD ""

theorem Outcome.prints_success (text : String) : (success text).Prints (some text) := ⟨rfl, rfl⟩

theorem Outcome.prints_failure (message : String) : (failure message).Prints none := ⟨rfl, rfl⟩

theorem prints_diagnosed (ds : List Diagnostic) : (diagnosed path source ds).Prints none :=
  ⟨rfl, rfl⟩

theorem Outcome.Prints.same {out out' : Outcome} {text : Option String} (h : out.Prints text)
    (h' : out'.Prints text) : out'.stdout = out.stdout ∧ out'.exitCode = out.exitCode :=
  ⟨h'.2.trans h.2.symm, h'.1.trans h.1.symm⟩

theorem translate_program : (translate path source .program).Prints
    ((parse source).toOption.map Program.text) := by
  rw [translate]
  cases parse source with
  | error e => exact Outcome.prints_failure _
  | ok p => exact Outcome.prints_success _

theorem translate_stages {mode : Mode} (hmode : mode = .nothing ∨ mode = .code) :
    translate path source mode = orFailure do
      let p ← parse source
      let s ← p.analyze
      if !s.diagnostics.isEmpty then return diagnosed path source s.diagnostics
      else if mode = .nothing then return .success ""
      else return .success (← s.lower p).text := by
  rcases hmode with rfl | rfl <;> rfl

/-- A program without mistakes gives code, so it is accepted also where no code is made. -/
theorem translate_prints {mode : Mode} (hmode : mode = .nothing ∨ mode = .code) :
    (translate path source mode).Prints ((compile source).toOption.map fun a =>
      if mode = .nothing then "" else a.text) := by
  rw [translate_stages hmode]
  cases hp : parse source with
  | error e =>
    rw [compile_of_parse_error hp]
    exact Outcome.prints_failure _
  | ok p =>
    obtain ⟨s, hanalyze, hs, ⟨d, ds, hds, hcompile⟩ | ⟨a, hnone, hlower, hcompile⟩⟩ :=
      compile_of_parse hp
    · rw [hcompile]
      simp only [bind, Except.bind, hanalyze, hds]
      exact prints_diagnosed (d :: ds)
    · have hcode : s.lower p = .ok a := by
        simp only [Session.lower, hnone, hlower]
        rfl
      rw [hcompile]
      simp only [bind, Except.bind, hanalyze, hnone, hcode]
      rcases hmode with rfl | rfl <;> exact Outcome.prints_success _

theorem toOption_compile_text {p : Program} (h : parse source = .ok p) :
    (compile p.text).toOption = (compile source).toOption := by
  obtain ⟨-, -, ⟨a, hcompile, hcompile'⟩ | ⟨ds, ds', hcompile, hcompile', -⟩⟩ :=
    printing_loses_nothing h
  · rw [hcompile, hcompile']
  · rw [hcompile, hcompile']
    rfl

/-- A run on a file does what the stages of the compiler do with its text. Without a mode, or with
the mode for code, it prints the code of the text; with the mode for checking it succeeds where
there is code and prints nothing; with the mode for programs it prints the program of the text, and
a file with that output leads to the same code. -/
theorem runs_agree (h : Holds files path source) (tape : List UInt8) :
    (isPlain path = true → Asks files [path] [] path ∧
      ∀ m, ∀ flag ∈ modeFlags m, Asks files [flag, path] [m] path) ∧
    (∀ args, Asks files args [] path ∨ Asks files args [.code] path →
      (run args files tape).Prints ((compile source).toOption.map Assembly.text)) ∧
    (∀ args, Asks files args [.nothing] path →
      (run args files tape).Prints ((compile source).toOption.map fun _ => "")) ∧
    ∀ args, Asks files args [.program] path →
      (run args files tape).Prints ((parse source).toOption.map Program.text) ∧
      ((run args files tape).exitCode = 0 → ∀ files' path' args₁ args₂ tape',
        Holds files' path' (run args files tape).stdout → Asks files' args₁ [] path' →
        Asks files args₂ [] path →
          (run args₁ files' tape').stdout = (run args₂ files tape).stdout ∧
          (run args₁ files' tape').exitCode = (run args₂ files tape).exitCode) := by
  have hcode {files : Files} {path source : String} (h : Holds files path source)
      {args : List String}
      (hask : Asks files args [] path ∨ Asks files args [.code] path) (tape : List UInt8) :
      (run args files tape).Prints ((compile source).toOption.map Assembly.text) := by
    rcases hask with hask | hask
    · rw [hask.run_eq h (by decide) tape]
      exact translate_prints (.inr rfl)
    · rw [hask.run_eq h (by decide) tape]
      exact translate_prints (.inr rfl)
  refine ⟨fun hplain => ⟨h.asks_path hplain, fun m flag => h.asks_mode hplain⟩,
    fun args hask => hcode h hask tape, fun args hask => ?_, fun args hask => ?_⟩
  · rw [hask.run_eq h (by decide) tape]
    exact translate_prints (.inl rfl)
  · have hprints : (run args files tape).Prints ((parse source).toOption.map Program.text) := by
      rw [hask.run_eq h (by decide) tape]
      exact translate_program
    refine ⟨hprints, fun hexit files' path' args₁ args₂ tape' hholds hask₁ hask₂ => ?_⟩
    cases hp : parse source with
    | error e =>
      rw [hprints.1, hp] at hexit
      cases hexit
    | ok p =>
      rw [hprints.2, hp] at hholds
      have hprinted := hcode hholds (.inl hask₁) tape'
      change (run args₁ files' tape').Prints ((compile p.text).toOption.map _) at hprinted
      rw [toOption_compile_text hp] at hprinted
      exact (hcode h (.inl hask₂) tape).same hprinted

def oneFile (path source : String) : Files := fun p =>
  if p = path then .file source.toUTF8 else .missing

theorem oneFile_holds (path source : String) : Holds (oneFile path source) path source :=
  ⟨source.toUTF8, if_pos rfl, dif_pos source.isValidUTF8⟩

set_option maxRecDepth 20000 in
theorem signedSource_runs : Holds (oneFile "p.asl" signedSource) "p.asl" signedSource ∧
    ∃ a p, compile signedSource = .ok a ∧ parse signedSource = .ok p ∧
      (run ["p.asl"] (oneFile "p.asl" signedSource) []).Prints (some a.text) ∧
      (run ["--tac", "p.asl"] (oneFile "p.asl" signedSource) []).Prints (some a.text) ∧
      (run ["--check", "p.asl"] (oneFile "p.asl" signedSource) []).Prints (some "") ∧
      (run ["-p", "p.asl"] (oneFile "p.asl" signedSource) []).Prints (some p.text) ∧
      (run ["q.asl"] (oneFile "q.asl" p.text) []).stdout = a.text ∧
      (run ["q.asl"] (oneFile "q.asl" p.text) []).exitCode = 0 := by
  have hchars : signedSource.toList = _ := String.toList_ofList
  have hok : (compile signedSource).toOption.isSome = true := by
    rw [compile, check, parse, tokens, hchars]
    decide +kernel
  obtain ⟨a, ha⟩ := exists_code_of_isSome hok
  obtain ⟨p, -, hp, -⟩ := compile_eq_ok ha
  have hholds := oneFile_holds "p.asl" signedSource
  obtain ⟨hasks, hcode, hcheck, hprogram⟩ := runs_agree hholds []
  obtain ⟨hplain, hflags⟩ := hasks rfl
  have hprinted := hprogram _ (hflags .program "-p" (by decide))
  rw [ha] at hcode hcheck
  rw [hp] at hprinted
  have hstdout : (run ["-p", "p.asl"] (oneFile "p.asl" signedSource) []).stdout = p.text :=
    hprinted.1.2
  have hholds' := oneFile_holds "q.asl" p.text
  have hagain := hprinted.2 hprinted.1.1 _ "q.asl" ["q.asl"] ["p.asl"] [] (by rwa [hstdout])
    (hholds'.asks_path rfl) hplain
  have hdefault := hcode _ (.inl hplain)
  exact ⟨hholds, a, p, ha, hp, hdefault, hcode _ (.inr (hflags .code "--tac" (by decide))),
    hcheck _ (hflags .nothing "--check" (by decide)), hprinted.1, hagain.1.trans hdefault.2,
    hagain.2.trans hdefault.1⟩

end Asl.CommandLine
