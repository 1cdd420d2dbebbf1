import Asl.Proofs.Code.Flows
import Asl.Proofs.Lowering.Structured
import Asl.Proofs.Source

/-!
# Accepted programs

A source text that gives code is that of a well typed program with identifiers for its names, and
each of its functions was lowered to a subroutine of well typed and structured code.
-/
namespace Asl

theorem Function.result_eq_none_iff (f : Function) : f.result = none ↔ f.resultType = .void := by
  unfold resultType
  cases f.result with
  | none => simp
  | some t => simpa using (Ty.OfValue.spec t.spec).ne_void

structure Program.Lowered (p : Program) (s : Session) (f : Function) (sub : Subroutine) :
    Prop where
  mem : f ∈ p.functions
  lowered : Lower.subroutine (p.lowering s f) f.type f = .ok sub
  heads : sub.Heads f
  typed : ∃ T, Code.Typed (p.surroundings f) T [] sub.code []

structure Program.Compiles (p : Program) (s : Session) (a : Assembly) : Prop where
  named : p.Named
  plain : p.Plain
  wellTyped : p.WellTyped
  analyzed : p.Analyzed s
  subroutines : List.Forall₂ (p.Lowered s) p.functions a.subroutines

theorem compile_accepted {source : String} {a : Assembly} (h : compile source = .ok a) :
    ∃ p s, parse source = .ok p ∧ p.analyze = .ok s ∧ p.Compiles s a := by
  obtain ⟨p, s, hp, hanalyze, hs, hnone, hlower⟩ := compile_eq_ok h
  obtain ⟨-, hplain, hnamed⟩ := parse_eq_ok hp
  rw [hs.diagnostics] at hnone
  have htyped := p.diagnostics_eq_nil_iff.1 hnone
  obtain ⟨a', ha', hsubs⟩ := Program.lowered_typed hplain htyped hs
  rw [hs.lower, ha'] at hlower
  cases hlower
  refine ⟨p, s, hp, hanalyze, hnamed, hplain, htyped, hs, ?_⟩
  refine ((List.forall₂_and_left _ _).2 ⟨fun f hf => hf, hsubs⟩).imp fun f sub hf => ?_
  exact ⟨hf.1, hf.2.1, hf.2.2.1, hf.2.2.2⟩

namespace Program.Compiles

variable {p : Program} {s : Session} {a : Assembly} {f : Function} {sub : Subroutine}

theorem agrees (h : p.Compiles s a) (hf : p.Lowered s f sub) :
    (p.surroundings f).Agrees (p.context f) (p.lowering s f) :=
  Program.agrees h.plain hf.mem s

theorem structured (h : p.Compiles s a) (hf : p.Lowered s f sub) : ∃ B g,
    Code.Structured (p.surroundings f).Calls ∅ sub.code B g ∧
      (f.result = none ∨ Stmt.anyMustReturn f.body = true → g = false) := by
  obtain ⟨B, g, hcode, hleft⟩ := Lower.subroutine_structured (h.agrees hf)
    (h.wellTyped.body f hf.mem) (h.analyzed.noted hf.mem) hf.lowered
  refine ⟨B, g, hcode, fun hor => hleft (hor.imp_left fun hresult => ?_)⟩
  rw [f.isProcedure_type]
  exact decide_eq_true (f.result_eq_none_iff.1 hresult)

theorem flows (h : p.Compiles s a) (hf : p.Lowered s f sub) : ∃ L Z,
    Code.Flows L 0 ⟨True, ∅, []⟩ sub.code Z ∧
      (f.result = none ∨ Stmt.anyMustReturn f.body = true → ¬ Z.reached) := by
  obtain ⟨B, g, hcode, hleft⟩ := h.structured hf
  have hlabels := Lower.nodup_labels hf.lowered
  obtain ⟨L, -, hflows⟩ := hcode.canFlow hlabels 0 True [] fun _ => ⟨True, ∅, []⟩
  refine ⟨L, _, hflows, fun hor hreached => ?_⟩
  rw [hleft hor] at hreached
  cases hreached.2

end Program.Compiles

/-- A text with calls inside of calls, of indexes, of bounds and of conditions, with loops that run
either way, and with variables and parameters that are named as functions are. -/
def surveySource : String :=
  "func g(n : int) : int if n > 3 then return max(n, 4); else return n + 1; endif endfunc func f(main : array [3] of int, k : float) : float var g, h : array [3] of int var i : int g := h; main[i] := g[2]; return main[i] * k; endfunc func p(f : float) f := 2 * f; write f; endfunc func main() var v : array [3] of int var i : int v[g(g(0))] := 4; read v[g(0)]; for i in range(0, g(2), g(1)) do while i < 2 do i := i + 1; endwhile endfor p(f(v, max(g(1), 2))); if g(1) > 2 then f(v, g(g(2))); endif endfunc"

set_option maxRecDepth 20000 in
theorem exists_code_surveySource : ∃ a, compile surveySource = .ok a := by
  have hchars : surveySource.toList = _ := String.toList_ofList
  have hok : (compile surveySource).toOption.isSome = true := by
    rw [compile, check, parse, tokens, hchars]
    decide +kernel
  exact exists_code_of_isSome hok

end Asl
