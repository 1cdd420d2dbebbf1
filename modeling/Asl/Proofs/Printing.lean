import Asl.Proofs.Lowering.Wrapped
import Asl.Proofs.Source
import Asl.Proofs.Tree.Layout
import Asl.Proofs.Tree.Numbered
import Asl.Proofs.Tree.Readback

/-!
# Printing and reading

The text of a program that source texts can express is read back as the program with the
parentheses of its text, so nothing that matters is lost: the text of what was read is the same
text, the analysis finds the same faults, and lowering gives the same code. A program that was read
from a source text gets no parentheses, so it is read back as itself.
-/
namespace Asl

open Mark (erased identity)

def Function.Prints (g g' : Function) : Prop :=
  g'.mapMark erased = (g.mapExpr Expr.wrapped).mapMark erased

/-- A program with the parentheses of the text of another, at any marks. -/
def Program.Prints (p p' : Program) : Prop := p'.bare = p.wrapped.bare

theorem parse_of_tokens {source : String} {ts : List Token} {p : Program}
    (hts : tokens source = .ok ts) (hp : Program.ofTokens ts = .ok p) : parse source = .ok p := by
  rw [parse, hts]
  change (Program.ofTokens ts).mapError _ = _
  rw [hp]
  rfl

namespace Program

variable {p p' : Program}

theorem parse_text (hp : p.Formed) (hw : ∀ k ∈ p.kinds, k.Written) :
    ∃ ts p', tokens p.text = .ok ts ∧ p.wrapped.kinds = ts.map Token.kind ∧
      parse p.text = .ok p' ∧ p.Prints p' ∧ p'.WellNested := by
  obtain ⟨ts, hts, hkinds⟩ := tokens_text hw
  obtain ⟨hread, hreads⟩ := ofTokens_of_kinds p.wellNested_wrapped hkinds
  obtain ⟨p', hp'⟩ := hreads (formed_wrapped hp)
  obtain ⟨-, hnested, -⟩ := kinds_of_ofTokens hp'
  exact ⟨ts, p', hts, hkinds, parse_of_tokens hts hp', hread p' hp', hnested⟩

theorem Prints.text_eq (h : p.Prints p') (hnested : p'.WellNested) : p'.text = p.text := by
  have hpieces := p'.pieces_wrapped erased
  rw [wrapped_of_wellNested hnested] at hpieces
  change p'.bare.pieces = p'.pieces at hpieces
  rw [text, text, ← hpieces, h]
  exact congrArg Piece.text (p.pieces_wrapped erased)

theorem Prints.unparen_eq (h : p.Prints p') : p'.unparen.bare = p.unparen.bare := by
  rw [bare_unparen, h, ← bare_unparen, unparen_wrapped]

theorem Prints.functions (h : p.Prints p') :
    List.Forall₂ Function.Prints p.functions p'.functions := by
  injection h with _ hfunctions
  change _ = (p.functions.map (Function.mapExpr Expr.wrapped)).map _ at hfunctions
  rw [List.map_map] at hfunctions
  exact forall₂_of_map_eq hfunctions

theorem Prints.context_eq (h : p.Prints p') {g g' : Function} (hg : g.Prints g') :
    p'.context g' = p.context g := by
  rw [← context_mapMark erased p' g', ← context_wrapped p g,
    ← context_mapMark erased p.wrapped (g.mapExpr Expr.wrapped)]
  exact congrArg₂ context h hg

theorem Prints.faults_eq (h : p.Prints p') (hnested : p'.WellNested) :
    p'.diagnostics.map (·.fault) = p.diagnostics.map (·.fault) := by
  have hmarks : p'.diagnostics.map (Diagnostic.mapMark erased) =
      p.diagnostics.map (Diagnostic.mapMark erased) := by
    rw [← diagnostics_mapMark erased p' fun _ => rfl, wrapped_of_wellNested hnested,
      ← diagnostics_mapMark erased p fun _ => rfl]
    exact congrArg diagnostics h
  have hfaults := congrArg (List.map (·.fault)) hmarks
  rw [List.map_map, List.map_map] at hfaults
  exact hfaults

theorem Prints.subroutine_eq (h : p.Prints p') {s s' : Session} (hs : p.Analyzed s)
    (hs' : p'.Analyzed s') {g g' : Function} (hg : g ∈ p.functions) (hg' : g' ∈ p'.functions)
    (hprints : g.Prints g') : Lower.subroutine (p'.lowering s' g') g'.type g' =
      Lower.subroutine (p.lowering s g) g.type g := by
  have hcontext := h.context_eq hprints
  have htype : g'.type = g.type := by
    rw [← Function.type_mapMark erased g', hprints, Function.type_mapMark]
    rfl
  have hnotes : (p.lowering s g).Reads (Stmt.judgeAll (p.context g) g.body) := hs.note g hg
  have hnotes' : (p'.lowering s' g').Reads (Stmt.judgeAll (p.context g) g'.body) := by
    rw [← hcontext]
    exact hs'.note g' hg'
  have hfunction : Lower.function (p'.lowering s' g') g.type g' =
      Lower.function (p.lowering s g) g.type g := by
    have hagrees : (p.lowering s g).SameCalls (p'.lowering s' g') g.callees :=
      .of_meaning (congrArg Context.meaning hcontext) g.callees
    refine Lower.function_sameText hagrees ?_ (Function.sameText_of_wrapped hprints) g.type ?_ ?_
      hnotes hnotes'
    · exact congrArg Context.result hcontext
    · exact fun d hd => hs.typeOf_declaration hg hd
    · exact fun d hd => hs'.typeOf_declaration hg' hd
  rw [htype, Lower.subroutine, Lower.subroutine, hfunction]

theorem Prints.lowered_eq (h : p.Prints p') {s s' : Session} (hs : p.Analyzed s)
    (hs' : p'.Analyzed s') : p'.lowered s' = p.lowered s := by
  rw [lowered, lowered]
  refine congrArg (Except.map Assembly.mk) (mapM_eq_of_forall₂ ?_)
  -- The notes are about the functions of the two programs, so the pairs keep their membership.
  refine (forall₂_mem h.functions).imp fun g g' hpair => ?_
  obtain ⟨hg, hg', hprints⟩ := hpair
  exact h.subroutine_eq hs hs' hg hg' hprints

theorem Prints.names_eq (h : p.Prints p') :
    p'.functions.map (·.name.name) = p.functions.map (·.name.name) :=
  map_eq_of_forall₂ (h.functions.imp fun _ _ hg => congrArg (·.name.name) hg)

theorem compile_text (hformed : p.Formed) (hwritten : ∀ k ∈ p.kinds, k.Written)
    (htyped : p.WellTyped) : ∃ a, compile p.text = .ok a ∧
      a.subroutines.map (·.name) = p.functions.map (·.name.name) := by
  obtain ⟨-, p', -, -, hp', hprints, hnested⟩ := p.parse_text hformed hwritten
  obtain ⟨s, -, hs, hout⟩ := compile_of_parse hp'
  have hnone : s.diagnostics = [] := by
    have hfaults := hprints.faults_eq hnested
    rw [p.diagnostics_eq_nil_iff.2 htyped, List.map_nil, List.map_eq_nil_iff] at hfaults
    rw [hs.diagnostics, hfaults]
  rcases hout with ⟨d, ds, hds, -⟩ | ⟨a, -, hlower, hcompile⟩
  · rw [hnone] at hds
    cases hds
  · obtain ⟨b, hb, hsubs⟩ := hs.lower_typed (parse_eq_ok hp').2.1 hnone
    rw [hlower] at hb
    cases hb
    refine ⟨a, hcompile, ?_⟩
    rw [← hprints.names_eq]
    exact map_eq_of_forall₂ (hsubs.imp fun _ _ hsub => hsub.1.name)

end Program

theorem Program.diagnostics_of_identity {p p' : Program}
    (h : p'.mapMark identity = p.mapMark identity) (hnested : p.WellNested)
    (hnested' : p'.WellNested) : p'.diagnostics.map (Diagnostic.mapMark identity) =
      p.diagnostics.map (Diagnostic.mapMark identity) := by
  rw [← Program.diagnostics_mapMark identity p' fun _ => rfl,
    ← Program.diagnostics_mapMark identity p fun _ => rfl,
    Program.wrapped_of_wellNested hnested, Program.wrapped_of_wellNested hnested', h]

theorem compile_alike {source source' : String} {p p' : Program} (hp : parse source = .ok p)
    (hp' : parse source' = .ok p') (h : p.Prints p')
    (hsame : p'.diagnostics.map (Diagnostic.mapMark identity) =
      p.diagnostics.map (Diagnostic.mapMark identity)) :
    (∃ a, compile source = .ok a ∧ compile source' = .ok a) ∨
      ∃ ds ds', compile source = .error (.diagnosed ds) ∧
        compile source' = .error (.diagnosed ds') ∧
          ds'.map (Diagnostic.mapMark identity) = ds.map (Diagnostic.mapMark identity) := by
  obtain ⟨s, -, hs, hout⟩ := compile_of_parse hp
  obtain ⟨s', -, hs', hout'⟩ := compile_of_parse hp'
  rw [← hs.diagnostics, ← hs'.diagnostics] at hsame
  rcases hout with ⟨d, ds, hds, hcompile⟩ | ⟨a, hnone, hlower, hcompile⟩
  · rcases hout' with ⟨d', ds', hds', hcompile'⟩ | ⟨a', hnone', -, -⟩
    · rw [hds, hds'] at hsame
      exact Or.inr ⟨d :: ds, d' :: ds', hcompile, hcompile', hsame⟩
    · rw [hds, hnone'] at hsame
      cases hsame
  · rcases hout' with ⟨d', ds', hds', -⟩ | ⟨a', -, hlower', hcompile'⟩
    · rw [hnone, hds'] at hsame
      cases hsame
    · rw [hs'.lower, h.lowered_eq hs hs', ← hs.lower, hlower] at hlower'
      cases hlower'
      exact Or.inl ⟨a, hcompile, hcompile'⟩

/-- The text of a program that was read has the tokens of the source text, is read back as the same
program with the same nodes, and is compiled to the same result. -/
theorem printing_loses_nothing {source : String} {p : Program} (h : parse source = .ok p) :
    (∃ ts ts', tokens source = .ok ts ∧ tokens p.text = .ok ts' ∧
      ts'.map Token.kind = ts.map Token.kind) ∧
    (∃ p', parse p.text = .ok p' ∧ p'.mapMark identity = p.mapMark identity ∧
      p'.text = p.text) ∧
    ((∃ a, compile source = .ok a ∧ compile p.text = .ok a) ∨
      ∃ ds ds', compile source = .error (.diagnosed ds) ∧
        compile p.text = .error (.diagnosed ds') ∧
          ds'.map (Diagnostic.mapMark identity) = ds.map (Diagnostic.mapMark identity)) := by
  obtain ⟨ts, hts, hp⟩ := exists_tokens_of_parse h
  obtain ⟨hkinds, hnested, hformed⟩ := Program.kinds_of_ofTokens hp
  have hwritten : ∀ k ∈ p.kinds, k.Written := by
    rw [hkinds]
    exact List.forall_mem_map.2 (tokens_written hts)
  have hwrapped := Program.wrapped_of_wellNested hnested
  obtain ⟨ts', p', hts', hkinds', hp', hprints, hnested'⟩ := Program.parse_text hformed hwritten
  have hread := hprints
  rw [Program.Prints, hwrapped] at hread
  obtain ⟨ts'', hts'', hread'⟩ := exists_tokens_of_parse hp'
  have hids := Program.ids_ofTokens hp
  have hids' := Program.ids_ofTokens hread'
  have hsame := Program.mapMark_identity hread hids hids'
  refine ⟨⟨ts, ts', hts, hts', ?_⟩, ⟨p', hp', hsame, hprints.text_eq hnested'⟩, ?_⟩
  · rw [← hkinds', hwrapped, hkinds]
  · exact compile_alike h hp' hprints (Program.diagnostics_of_identity hsame hnested hnested')

def signedSource : String :=
  "func main() var x : float x := -(1 + 2) * 3.50 - 4; write x; write \"x\\n\"; endfunc"

set_option maxRecDepth 20000 in
theorem signedSource_printed : ∃ p, parse signedSource = .ok p ∧
    (∃ ts ts', tokens signedSource = .ok ts ∧ tokens p.text = .ok ts' ∧
      ts'.map Token.kind = ts.map Token.kind) ∧
    (∃ p', parse p.text = .ok p' ∧ p'.mapMark identity = p.mapMark identity ∧
      p'.text = p.text) ∧
    ((∃ a, compile signedSource = .ok a ∧ compile p.text = .ok a) ∨
      ∃ ds ds', compile signedSource = .error (.diagnosed ds) ∧
        compile p.text = .error (.diagnosed ds') ∧
          ds'.map (Diagnostic.mapMark identity) = ds.map (Diagnostic.mapMark identity)) := by
  have hchars : signedSource.toList = _ := String.toList_ofList
  have hok : (parse signedSource).toOption.isSome = true := by
    rw [parse, tokens, hchars]
    decide +kernel
  cases hp : parse signedSource with
  | error e =>
    rw [hp] at hok
    cases hok
  | ok p => exact ⟨p, rfl, printing_loses_nothing hp⟩

/-- A program that source texts can express, whatever the nesting of its operators. -/
structure Program.Expressible (p : Program) : Prop where
  distinct : p.ids.Nodup
  formed : p.Formed
  written : ∀ k ∈ p.kinds, k.Written

/-- The text of a program is read as the program but for parentheses, and the analysis and the
lowering do not tell them apart. -/
theorem Program.Expressible.text_stands_for_tree {p : Program} (h : p.Expressible) :
    ∃ p', parse p.text = .ok p' ∧ p'.unparen.bare = p.unparen.bare ∧ p'.text = p.text ∧
      ∃ s s', p.analyze = .ok s ∧ p'.analyze = .ok s' ∧
        s'.diagnostics.map (·.fault) = s.diagnostics.map (·.fault) ∧
        ((Pass.lowerProgram p').run s').1 = ((Pass.lowerProgram p).run s).1 := by
  obtain ⟨-, p', -, -, hp', hprints, hnested⟩ := Program.parse_text h.formed h.written
  obtain ⟨s, hanalyze, hs⟩ := Program.analyze_eq_ok h.distinct
  obtain ⟨s', hanalyze', hs'⟩ := Program.analyze_eq_ok (parse_eq_ok hp').1
  refine ⟨p', hp', hprints.unparen_eq, hprints.text_eq hnested, s, s', hanalyze, hanalyze', ?_, ?_⟩
  · rw [hs.diagnostics, hs'.diagnostics]
    exact hprints.faults_eq hnested
  · rw [hs.lower, hs'.lower]
    exact hprints.lowered_eq hs hs'

def nestedDifference : Program :=
  let mark (n : Nat) : Mark := ⟨n, 0, 0⟩
  let number (id : Nat) (n : Int) : Expr := .literal (mark id) (.int n)
  ⟨0, [⟨mark 1, ⟨mark 2, "main"⟩, [], none, [], [.write (mark 3) (.binary (mark 4) .sub
    (number 5 4) (.binary (mark 6) .sub (number 7 3) (number 8 2)))]⟩]⟩

theorem nestedDifference_stands : nestedDifference.Expressible ∧
    ∃ p', parse nestedDifference.text = .ok p' ∧
      p'.unparen.bare = nestedDifference.unparen.bare ∧ p'.text = nestedDifference.text ∧
      ∃ s s', nestedDifference.analyze = .ok s ∧ p'.analyze = .ok s' ∧
        s'.diagnostics.map (·.fault) = s.diagnostics.map (·.fault) ∧
        ((Pass.lowerProgram p').run s').1 =
          ((Pass.lowerProgram nestedDifference).run s).1 := by
  have hmain : FreeName "main" := by
    constructor <;> decide
  have hexpressible : nestedDifference.Expressible := by
    refine ⟨by decide, ⟨by simp [nestedDifference], fun f hf => ?_⟩, ?_⟩
    · cases List.mem_singleton.1 hf
      constructor <;> simp [Stmt.exprsAll, Stmt.exprs, Expr.parts, Expr.Filled]
    · have hkinds : nestedDifference.kinds = [.keyword .func, .ident "main", .symbol .lparen,
          .symbol .rparen, .keyword .write, .int 4, .symbol .minus, .int 3, .symbol .minus, .int 2,
          .symbol .semicolon, .keyword .endfunc] := rfl
      rw [hkinds]
      simp [TokenKind.Written, hmain, integerBound]
  exact ⟨hexpressible, hexpressible.text_stands_for_tree⟩

end Asl
