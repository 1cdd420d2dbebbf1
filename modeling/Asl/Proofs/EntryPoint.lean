import Asl.Proofs.Reuse
import Asl.Proofs.ScopeDiscipline

/-!
# The entry point of a program

An analysis ends by looking for an entry point, and looks for it in the first scope of the session.
That is the scope of the first program that the session has declared. In a fresh session it is the
scope of the program at hand; in a session that is used again it is that of another program.
-/
namespace Asl

theorem View.hasMain_declared {b : View} {ps : List Program}
    (hb : b.scopes.head? = ps.head?.map fun p => Entry.meaning? p.entries) (p : Program) :
    (b.declared p.id p.functions).leave.hasMain = (ps.headD p).hasMain := by
  refine View.hasMain_eq ?_
  change (b.declared p.id p.functions).scopes[0]? = _
  rw [← List.head?_eq_getElem?, View.head?_declared, hb]
  cases ps <;> rfl

namespace Session

/-- An analysis ends with a diagnostic about a missing entry point exactly if the program that the
session declared first has none, and adds no other diagnostic of the kind. In a fresh session, that
is the program that is analysed. -/
theorem Runs.analyze_entry_point {ps : List Program} {s : Session} (h : Runs ps s) (p : Program) :
    ∃ s' added, (Pass.analyze p).run s = (.ok (), s') ∧
      s'.diagnostics = s.diagnostics ++ added ++
        (if (ps.headD p).hasMain then [] else [⟨⟨p.id, 0, 0⟩, .noMain⟩]) ∧
      ∀ d ∈ added, d.fault ≠ .noMain := by
  obtain ⟨hs, hfirst⟩ := h.lawful
  obtain ⟨s', hrun, -, hchecked⟩ := Pass.analyze_succeeds hs.sound hs.ranged p
  obtain ⟨added, hadded, hfaults⟩ := hchecked.diagnostics
  rw [View.hasMain_declared hfirst] at hadded
  refine ⟨s', Function.allRedeclared [] p.functions ++ added, hrun, ?_, ?_⟩
  · rw [← List.append_assoc]
    exact hadded
  · exact List.forall_mem_append.2 ⟨fun d hd => (Function.located_allRedeclared hd).2, hfaults⟩

/-- After a program with an entry point, one without is analysed, and its missing entry point is not
reported. -/
theorem straying_after_scaling :
    let s := ((Pass.analyze .scaling).run .fresh).2
    Runs [.scaling] s ∧ s.scopes.stack = [] ∧ Program.straying.hasMain = false ∧
      ∃ s' added, (Pass.analyze .straying).run s = (.ok (), s') ∧
        s'.diagnostics = s.diagnostics ++ added ++
          (if (List.headD [Program.scaling] .straying).hasMain then []
            else [⟨⟨Program.straying.id, 0, 0⟩, .noMain⟩]) ∧
        ∀ d ∈ added, d.fault ≠ .noMain := by
  have hruns : Runs [.scaling] ((Pass.analyze .scaling).run .fresh).2 := .analyze .scaling .fresh
  exact ⟨hruns, by decide +kernel, rfl, hruns.analyze_entry_point .straying⟩

/-- So a session without active scopes may miss that a program has no entry point. -/
theorem missing_entry_point_unreported :
    ¬ ∀ ps s, Runs ps s → s.scopes.stack = [] → ∀ p added,
      ((Pass.analyze p).run s).2.diagnostics = s.diagnostics ++ added →
      ((∃ d ∈ added, d.fault = .noMain) ↔ p.hasMain = false) := by
  intro h
  have hruns : Runs [.scaling] ((Pass.analyze .scaling).run .fresh).2 := .analyze .scaling .fresh
  have hadded : ((Pass.analyze .straying).run ((Pass.analyze .scaling).run .fresh).2).2.diagnostics
      = ((Pass.analyze .scaling).run .fresh).2.diagnostics ++
        [⟨⟨3, 0, 0⟩, .undeclared "a"⟩] := by
    decide +kernel
  obtain ⟨d, hd, hfault⟩ := (h _ _ hruns (by decide +kernel) .straying _ hadded).2 rfl
  rw [List.mem_singleton.1 hd] at hfault
  cases hfault

end Session

end Asl
