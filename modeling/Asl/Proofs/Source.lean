import Asl.Compile
import Asl.Proofs.Lowering.Failure
import Asl.Proofs.Lowering.TypedBody
import Asl.Proofs.Tree.Parsed

/-!
# Source texts and their code

What the passes guarantee of a program with distinct nodes holds of every source text, since a
program that was read has distinct nodes and base types for its results. So a source text that gives
no code has a mistake in it, and the code of one that is accepted is well typed.
-/
namespace Asl

theorem Program.analyze_eq_ok {p : Program} (h : p.ids.Nodup) :
    ∃ s, p.analyze = .ok s ∧ p.Analyzed s := by
  obtain ⟨s, hrun, hs⟩ := Program.analyze_fresh h
  refine ⟨s, ?_, hs⟩
  rw [Program.analyze, hrun]

theorem Program.Analyzed.lower_typed {p : Program} {s : Session} (hs : p.Analyzed s)
    (hplain : p.Plain) (hnone : s.diagnostics = []) :
    ∃ a, ((Pass.lowerProgram p).run s).1 = .ok a ∧
      List.Forall₂ (fun f sub => sub.Heads f ∧
        ∃ T, Code.Typed (p.surroundings f) T [] sub.code []) p.functions a.subroutines := by
  rw [hs.lower]
  rw [hs.diagnostics] at hnone
  obtain ⟨a, ha, htyped⟩ := Program.lowered_typed hplain (p.diagnostics_eq_nil_iff.1 hnone) hs
  exact ⟨a, ha, htyped.imp fun f sub h => h.2⟩

theorem compile_of_parse {source : String} {p : Program} (hp : parse source = .ok p) :
    ∃ s, p.analyze = .ok s ∧ p.Analyzed s ∧
      ((∃ d ds, s.diagnostics = d :: ds ∧ compile source = .error (.diagnosed (d :: ds))) ∨
        ∃ a, s.diagnostics = [] ∧ ((Pass.lowerProgram p).run s).1 = .ok a ∧
          compile source = .ok a) := by
  obtain ⟨hids, hplain, -⟩ := parse_eq_ok hp
  obtain ⟨s, hanalyze, hs⟩ := Program.analyze_eq_ok hids
  have hcompile : compile source = s.lower p := by
    rw [compile, check, hp]
    change ((p.analyze >>= fun s => pure (p, s)) >>= fun r => r.2.lower r.1) = _
    rw [hanalyze]
    rfl
  refine ⟨s, hanalyze, hs, ?_⟩
  rw [hcompile, Session.lower]
  cases hds : s.diagnostics with
  | cons d ds => exact Or.inl ⟨d, ds, rfl, rfl⟩
  | nil =>
    obtain ⟨a, ha, -⟩ := hs.lower_typed hplain hds
    refine Or.inr ⟨a, rfl, ha, ?_⟩
    simp only [ha]
    rfl

theorem parse_eq_error {source : String} {e : CompileError} (h : parse source = .error e) :
    (∃ e', e = .lex e') ∨ ∃ e', e = .parse e' := by
  unfold parse at h
  cases hts : tokens source with
  | error e' =>
    rw [hts] at h
    cases h
    exact Or.inl ⟨e', rfl⟩
  | ok ts =>
    rw [hts] at h
    cases hp : Program.ofTokens ts with
    | error e' =>
      simp only [hp, Except.mapError, bind, Except.bind] at h
      cases h
      exact Or.inr ⟨e', rfl⟩
    | ok p =>
      simp only [hp, Except.mapError, bind, Except.bind] at h
      cases h

theorem compile_of_parse_error {source : String} {e : CompileError}
    (h : parse source = .error e) : compile source = .error e := by
  rw [compile, check, h]
  rfl

/-- A source text that gives code was read and analysed, and nothing was reported of it. -/
theorem compile_eq_ok {source : String} {a : Assembly} (h : compile source = .ok a) :
    ∃ p s, parse source = .ok p ∧ p.analyze = .ok s ∧ p.Analyzed s ∧ s.diagnostics = [] ∧
      ((Pass.lowerProgram p).run s).1 = .ok a := by
  cases hp : parse source with
  | error e =>
    rw [compile_of_parse_error hp] at h
    cases h
  | ok p =>
    obtain ⟨s, hanalyze, hs, ⟨d, ds, -, herror⟩ | ⟨b, hnone, hlower, hok⟩⟩ := compile_of_parse hp
    · rw [herror] at h
      cases h
    · rw [hok] at h
      cases h
      exact ⟨p, s, rfl, hanalyze, hs, hnone, hlower⟩

theorem exists_code_of_isSome {source : String}
    (h : (compile source).toOption.isSome = true) : ∃ a, compile source = .ok a := by
  cases hcompile : compile source with
  | error e =>
    rw [hcompile] at h
    cases h
  | ok a => exact ⟨a, rfl⟩

/-- Analysing a program succeeds; lowering it afterwards misses nothing that the analysis should
have left, and succeeds if nothing was reported. So a source text gives code or has a mistake. -/
theorem compile_is_ok_or_mistaken :
    (∀ p : Program, p.ids.Nodup → ∃ s, p.analyze = .ok s ∧
      (∀ e, ((Pass.lowerProgram p).run s).1 = .error e → e.isInternal = false) ∧
      (s.diagnostics = [] → p.Plain → ∃ a, ((Pass.lowerProgram p).run s).1 = .ok a)) ∧
    ∀ source, (∃ a, compile source = .ok a) ∨ (∃ e, compile source = .error (.lex e)) ∨
      (∃ e, compile source = .error (.parse e)) ∨
        ∃ d ds, compile source = .error (.diagnosed (d :: ds)) := by
  constructor
  · intro p hids
    obtain ⟨s, hanalyze, hs⟩ := Program.analyze_eq_ok hids
    refine ⟨s, hanalyze, ?_, ?_⟩
    · intro e he
      rw [hs.lower] at he
      exact hs.blameless he
    · intro hnone hplain
      obtain ⟨a, ha, -⟩ := hs.lower_typed hplain hnone
      exact ⟨a, ha⟩
  · intro source
    cases hp : parse source with
    | error e =>
      have hcompile := compile_of_parse_error hp
      rcases parse_eq_error hp with ⟨e', he⟩ | ⟨e', he⟩
      · rw [he] at hcompile
        exact Or.inr (Or.inl ⟨e', hcompile⟩)
      · rw [he] at hcompile
        exact Or.inr (Or.inr (Or.inl ⟨e', hcompile⟩))
    | ok p =>
      obtain ⟨s, -, -, ⟨d, ds, -, h⟩ | ⟨a, -, -, h⟩⟩ := compile_of_parse hp
      · exact Or.inr (Or.inr (Or.inr ⟨d, ds, h⟩))
      · exact Or.inl ⟨a, h⟩

theorem scaling_is_lowered : Program.scaling.ids.Nodup ∧ Program.scaling.Plain ∧
    ∃ s a, Program.scaling.analyze = .ok s ∧ s.diagnostics = [] ∧
      ((Pass.lowerProgram Program.scaling).run s).1 = .ok a := by
  have hids : Program.scaling.ids.Nodup := by decide
  have hplain : Program.scaling.Plain := by
    intro f hf t ht
    simp only [Program.scaling, List.mem_cons, List.not_mem_nil, or_false] at hf
    rcases hf with hf | hf
    · rw [hf] at ht
      cases ht
      exact ⟨.float, rfl⟩
    · rw [hf] at ht
      cases ht
  have hnone : (Program.scaling.analyze.map (·.diagnostics)).toOption = some [] := by
    decide +kernel
  obtain ⟨s, hanalyze, -, hlower⟩ := compile_is_ok_or_mistaken.1 Program.scaling hids
  rw [hanalyze] at hnone
  have hs : s.diagnostics = [] := Option.some.inj hnone
  obtain ⟨a, ha⟩ := hlower hs hplain
  exact ⟨hids, hplain, s, a, hanalyze, hs, ha⟩

/-- The code of a source text has a subroutine for every function, with types for its temporaries
under which it is well typed. -/
theorem compile_well_typed {source : String} {a : Assembly} (h : compile source = .ok a) :
    ∃ p, parse source = .ok p ∧ List.Forall₂ (fun f sub => sub.Heads f ∧
      ∃ T, Code.Typed (p.surroundings f) T [] sub.code []) p.functions a.subroutines := by
  obtain ⟨p, s, hp, -, hs, hnone, hlower⟩ := compile_eq_ok h
  obtain ⟨-, hplain, -⟩ := parse_eq_ok hp
  obtain ⟨a', ha', htyped⟩ := hs.lower_typed hplain hnone
  rw [hlower] at ha'
  cases ha'
  exact ⟨p, hp, htyped⟩

def scalingSource : String :=
  "func f(a : array [2] of int, k : float) : float return a[0] * k; endfunc func main() var v : array[2] of int var s : float v[1] := 3; s := f(v, 2); write s; endfunc"

set_option maxRecDepth 20000 in
theorem scalingSource_well_typed : ∃ a p, compile scalingSource = .ok a ∧
    parse scalingSource = .ok p ∧ List.Forall₂ (fun f sub => sub.Heads f ∧
      ∃ T, Code.Typed (p.surroundings f) T [] sub.code []) p.functions a.subroutines := by
  -- The kernel takes the characters from the literal, and does not decode its bytes.
  have hchars : scalingSource.toList = _ := String.toList_ofList
  have hok : (compile scalingSource).toOption.isSome = true := by
    rw [compile, check, parse, tokens, hchars]
    decide +kernel
  obtain ⟨a, ha⟩ := exists_code_of_isSome hok
  obtain ⟨p, hp, htyped⟩ := compile_well_typed ha
  exact ⟨a, p, ha, hp, htyped⟩

end Asl
