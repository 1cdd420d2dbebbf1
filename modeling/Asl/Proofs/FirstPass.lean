import Asl.Proofs.Session.Analysis
import Asl.Proofs.Session.Listing

/-!
# What the first pass builds

In a fresh session the first pass opens one scope for the program and one for each function, in
their order, and notes them at their nodes. A scope lists each of its names once, as the first entry
of the name declares it, and every later entry of a name is reported. A function has the type of all
parameters that it writes, also of those that are reported, and it has one even if another function
of its name stands before it.
-/
namespace Asl

theorem Entry.nodup_listed (es : List Entry) :
    (((firsts es).map listed).map Prod.fst).Nodup := by
  rw [List.map_map]
  exact nodup_map_firsts es

/-- What a program declares in a fresh session. -/
theorem Program.declared_in_fresh {p : Program} (hp : p.ids.Nodup) :
    ∃ s, (Pass.declareProgram p).run .fresh = (.ok (), s) ∧
      s.scopes.scopes.map Scope.name = globalName :: p.functions.map (·.name.name) ∧
      s.attributes.scope p.id = .ok 0 ∧
      (∀ i f, p.functions[i]? = some f →
        s.attributes.scope f.mark.id = .ok (i + 1) ∧ s.typeOf f.mark.id = .ok f.type) ∧
      s.listings = (Entry.firsts p.entries).map Entry.listed ::
        p.functions.map (fun f => (Entry.firsts f.entries).map Entry.listed) ∧
      (∀ l ∈ s.listings, (l.map Prod.fst).Nodup) ∧
      s.diagnostics = Function.allRedeclared [] p.functions ∧
      s.scopes.stack = [] := by
  obtain ⟨s, hrun, hview, hnames, hlistings⟩ := Pass.declareProgram_fresh p
  refine ⟨s, hrun, hnames, ?_, fun i f hi => ⟨?_, ?_⟩, hlistings, fun l hl => ?_, ?_, ?_⟩
  · rw [Session.scope_eq_ok_iff, hview]
    exact View.scopeOf_declared _ hp
  · have hscope := View.scopeOf_function_declared Session.fresh.view hp hi
    rw [show Session.fresh.view.scopes.length = 0 from rfl, Nat.zero_add, Nat.add_comm] at hscope
    rw [Session.scope_eq_ok_iff, hview]
    exact hscope
  · refine Session.typeOf_eq_ok ?_
    rw [hview]
    exact View.typeOf_function_declared _ hp (List.mem_of_getElem? hi)
  · rw [hlistings, List.mem_cons, List.mem_map] at hl
    rcases hl with rfl | ⟨f, -, rfl⟩
    · exact Entry.nodup_listed _
    · exact Entry.nodup_listed _
  · exact congrArg View.diagnostics hview
  · exact congrArg View.stack hview

def Program.repeating : Program :=
  let mark (n : Nat) : Mark := ⟨n, 0, 0⟩
  { id := 0
    functions := [
      { mark := mark 1
        name := ⟨mark 2, "main"⟩
        params := []
        result := none
        declarations := [⟨[⟨mark 3, "x"⟩], ⟨mark 4, .base .int⟩⟩,
          ⟨[⟨mark 5, "x"⟩], ⟨mark 6, .base .float⟩⟩]
        body := [] },
      { mark := mark 7
        name := ⟨mark 8, "g"⟩
        params := [⟨⟨mark 9, "y"⟩, ⟨mark 10, .base .int⟩⟩, ⟨⟨mark 11, "y"⟩, ⟨mark 12, .base .char⟩⟩]
        result := none
        declarations := []
        body := [] },
      { mark := mark 13
        name := ⟨mark 14, "main"⟩
        params := []
        result := some ⟨mark 15, .base .bool⟩
        declarations := []
        body := [] }] }

theorem Program.repeating_in_fresh : Program.repeating.ids.Nodup ∧
    ∃ s, (Pass.declareProgram repeating).run .fresh = (.ok (), s) ∧
      s.listings = [[("main", .function, .function [] .void),
          ("g", .function, .function [.int, .char] .void)],
        [("x", .variable, .int)], [("y", .parameter, .int)], []] ∧
      s.typeOf 13 = .ok (.function [] .bool) ∧
      s.diagnostics = [⟨⟨5, 0, 0⟩, .redeclared "x"⟩, ⟨⟨11, 0, 0⟩, .redeclared "y"⟩,
        ⟨⟨14, 0, 0⟩, .redeclared "main"⟩] := by
  have hids : repeating.ids.Nodup := by decide
  obtain ⟨s, hrun, -, -, hfunctions, hlistings, -, hdiagnostics, -⟩ := declared_in_fresh hids
  refine ⟨hids, s, hrun, hlistings.trans (by decide), (hfunctions 2 _ rfl).2, ?_⟩
  exact hdiagnostics.trans (by decide)

end Asl
