import Asl.Proofs.Printing
import Asl.Proofs.Sample.Statements

/-!
# Sample programs compile

A sample program has three functions with fixed declarations and drawn bodies. What names mean in a
body depends on the declarations alone, and there the vocabulary of each body describes it. So a
sample program is well typed, and as its tokens can be written down, its text is read back and
compiled, whatever the size and the tape are.
-/
namespace Asl

namespace Sample

open Draw

def frame : Program := ⟨0, [scaleHead, fillHead, mainHead]⟩

theorem describes_of_listed {V : Vocabulary} {Γ : Context}
    (h : ∀ t, ∀ x ∈ V.names t, FreeName x ∧ (Γ.meaning x = some (.variable, .ofBase t) ∨
      Γ.meaning x = some (.parameter, .ofBase t))) :
    ∀ t, ∀ x ∈ V.names t, ∃ role, role ≠ .function ∧ Named Γ x role (.ofBase t) := by
  intro t x hx
  obtain ⟨hfree, hvariable | hparameter⟩ := h t x hx
  · exact ⟨.variable, by decide, hfree, hvariable⟩
  · exact ⟨.parameter, by decide, hfree, hparameter⟩

theorem describes_scale : scaleNames.Describes (frame.context scaleHead) where
  names := by
    refine describes_of_listed fun t => ?_
    cases t <;> decide +kernel
  control := List.cons_ne_nil _ _
  array := by rintro a ⟨⟩
  scale := by rintro ⟨⟩
  fill := by rintro ⟨⟩
  filled := by rintro ⟨⟩

theorem describes_fill : fillNames.Describes (frame.context fillHead) where
  names := by
    refine describes_of_listed fun t => ?_
    cases t <;> decide +kernel
  control := List.cons_ne_nil _ _
  array := by
    rintro a ⟨⟩
    exact ⟨.parameter, by decide +kernel, rfl⟩
  scale := by rintro ⟨⟩
  fill := by rintro ⟨⟩
  filled := by rintro ⟨⟩

theorem describes_main : mainNames.Describes (frame.context mainHead) where
  names := by
    refine describes_of_listed fun t => ?_
    cases t <;> decide +kernel
  control := List.cons_ne_nil _ _
  array := by
    rintro a ⟨⟩
    exact ⟨.variable, by decide +kernel, rfl⟩
  scale _ := ⟨by decide +kernel, rfl⟩
  fill _ := ⟨by decide +kernel, rfl⟩
  filled _ := ⟨.variable, by decide +kernel, rfl⟩

def DrawnFunction (head : Function) (n : Nat) (f : Function) : Prop :=
  ∃ ss, f = { head with body := ss } ∧ ∀ s ∈ ss, DrawnStmt (frame.context head) n s

theorem always_scale (most : Nat) : Always (scale most) (DrawnFunction scaleHead 1) := by
  refine always_bind (always_expr describes_scale maxDepth .float) fun first hfirst => ?_
  refine always_bind (always_block (always_stmt describes_scale most 1) most) fun ss hss => ?_
  refine always_bind (always_expr describes_scale maxDepth .float) fun value hvalue => ?_
  have ht : Named (frame.context scaleHead) "t" .variable .float := ⟨by decide +kernel, rfl⟩
  refine always_pure ⟨_, rfl, List.forall_mem_append.2 ⟨List.forall_mem_cons.2 ⟨?_, hss⟩, ?_⟩⟩
  · exact drawn_assign (by decide) ht hfirst
  · exact List.forall_mem_singleton.2 (drawn_ret hvalue (.same .float))

theorem always_fill (most : Nat) : Always (fill most) (DrawnFunction fillHead 1) := by
  refine always_bind (always_expr describes_fill maxDepth .int) fun value hvalue => ?_
  refine always_bind (always_block (always_stmt describes_fill most 1) most) fun ss hss => ?_
  have hj : Named (frame.context fillHead) "j" .variable .int := ⟨by decide +kernel, rfl⟩
  have hv : Named (frame.context fillHead) "v" .parameter (.array arraySize .int) :=
    ⟨by decide +kernel, rfl⟩
  have hsize : Drawn (frame.context fillHead) maxDepth (.literal .blank (.int arraySize)) .int :=
    drawn_literal (v := .int arraySize) ⟨by decide, by decide⟩
  refine always_pure ⟨_, rfl, List.forall_mem_cons.2 ⟨drawn_for hj (by decide) ?_ ?_, hss⟩⟩
  · exact List.forall_mem_singleton.2 hsize
  · exact List.forall_mem_singleton.2 (drawn_assignElement hv (drawn_name hj) hvalue)

theorem always_entry (most : Nat) : Always (entry most) (DrawnFunction mainHead 2) := by
  refine always_bind (always_expr describes_main 1 .int) fun value hvalue => ?_
  refine always_bind (always_expr describes_main maxDepth .int) fun argument hargument => ?_
  refine always_bind (always_block (always_stmt describes_main most 2) most) fun ss hss => ?_
  have hi : Named (frame.context mainHead) "i0" .variable .int := ⟨by decide +kernel, rfl⟩
  refine always_pure ⟨_, rfl, List.forall_mem_cons.2 ⟨?_, List.forall_mem_cons.2 ⟨?_, hss⟩⟩⟩
  · exact drawn_assign (by decide) hi (hvalue.mono (by decide))
  · exact drawn_callFill describes_main rfl hargument

inductive DrawnProgram : Program → Prop
  | intro {f g h : Function} : DrawnFunction scaleHead 1 f → DrawnFunction fillHead 1 g →
      DrawnFunction mainHead 2 h → DrawnProgram ⟨0, [f, g, h]⟩

theorem always_program (size : Nat) : Always (program size) DrawnProgram :=
  always_bind (always_scale _) fun _ hf => always_bind (always_fill _) fun _ hg =>
    always_bind (always_entry _) fun _ hh => always_pure (.intro hf hg hh)

namespace DrawnProgram

variable {p : Program}

/-- What names mean in a body does not depend on the bodies. -/
theorem wellTyped (hp : DrawnProgram p) : p.WellTyped := by
  obtain ⟨⟨f, rfl, hf⟩, ⟨g, rfl, hg⟩, ⟨h, rfl, hh⟩⟩ := hp
  have hscale : (scaleHead.entries.map Entry.name).Nodup := by decide
  have hfill : (fillHead.entries.map Entry.name).Nodup := by decide
  have hmain : (mainHead.entries.map Entry.name).Nodup := by decide
  have hnames : (frame.functions.map (·.name.name)).Nodup := by decide
  constructor
  · exact List.forall_mem_cons.2 ⟨hscale, List.forall_mem_cons.2
      ⟨hfill, List.forall_mem_singleton.2 hmain⟩⟩
  · exact hnames
  · exact ⟨_, List.mem_cons_of_mem _ (List.mem_cons_of_mem _ List.mem_cons_self), rfl, rfl, rfl⟩
  · exact List.forall_mem_cons.2 ⟨fun s hs => (hf s hs).ok, List.forall_mem_cons.2
      ⟨fun s hs => (hg s hs).ok, List.forall_mem_singleton.2 fun s hs => (hh s hs).ok⟩⟩

end DrawnProgram

theorem formed_frame : ∀ f ∈ frame.functions, f.Formed := by
  simp only [frame, List.forall_mem_cons, List.not_mem_nil, false_implies, implies_true, and_true]
  refine ⟨?_, ?_, ?_⟩ <;> constructor <;>
    simp [scaleHead, fillHead, mainHead, parameter, declaration, note, intArray, arraySize,
      TypeSpec.Sized, Stmt.exprsAll]

theorem formed_of_drawn {head f : Function} {n : Nat} (hhead : head ∈ frame.functions)
    (hf : DrawnFunction head n f) : f.Formed := by
  obtain ⟨ss, rfl, hss⟩ := hf
  exact { formed_frame head hhead with
    filled := Stmt.filled_body fun s hs => (hss s hs).ok.filled }

theorem written_of_drawn {head f : Function} {n : Nat} (hhead : head ∈ frame.functions)
    (hf : DrawnFunction head n f) : ∀ k ∈ f.kinds, k.Written := by
  have hfree : ∀ f ∈ frame.functions, ∀ x ∈ f.name.name :: f.entries.map Entry.name,
      FreeName x := by decide +kernel
  have hsmall : ∀ f ∈ frame.functions, (∀ q ∈ f.params, q.type.spec.Small) ∧
      ∀ d ∈ f.declarations, d.type.spec.Small := by decide
  obtain ⟨hparams, hdeclarations⟩ := hsmall head hhead
  have hformed := formed_of_drawn hhead hf
  obtain ⟨ss, rfl, hss⟩ := hf
  exact Function.written_kinds hformed (hfree head hhead) hparams hdeclarations (written_body hss)

namespace DrawnProgram

variable {p : Program}

theorem forall_functions {P : Function → Prop} (hp : DrawnProgram p)
    (h : ∀ head ∈ frame.functions, ∀ n f, DrawnFunction head n f → P f) :
    ∀ f ∈ p.functions, P f := by
  obtain ⟨hf, hg, hh⟩ := hp
  obtain ⟨hscale, hfill, hmain⟩ : (∀ n f, DrawnFunction scaleHead n f → P f) ∧
      (∀ n f, DrawnFunction fillHead n f → P f) ∧ ∀ n f, DrawnFunction mainHead n f → P f := by
    simpa [frame] using h
  exact List.forall_mem_cons.2 ⟨hscale 1 _ hf, List.forall_mem_cons.2
    ⟨hfill 1 _ hg, List.forall_mem_singleton.2 (hmain 2 _ hh)⟩⟩

theorem formed (hp : DrawnProgram p) : p.Formed where
  functions := by
    obtain ⟨-, -, -⟩ := hp
    exact List.cons_ne_nil _ _
  formed := hp.forall_functions fun _ hhead _ _ hf => formed_of_drawn hhead hf

theorem written (hp : DrawnProgram p) : ∀ k ∈ p.kinds, k.Written :=
  List.forall_mem_flatMap.2
    (hp.forall_functions fun _ hhead _ _ hf => written_of_drawn hhead hf)

theorem names (hp : DrawnProgram p) :
    p.functions.map (·.name.name) = ["scale", "fill", "main"] := by
  obtain ⟨⟨f, rfl, -⟩, ⟨g, rfl, -⟩, ⟨h, rfl, -⟩⟩ := hp
  rfl

theorem within (hp : DrawnProgram p) : ∀ f ∈ p.functions, ∀ s ∈ f.body,
    s.Within maxDepth (if f.name.name = "main" then 2 else 1) := by
  obtain ⟨⟨f, rfl, hf⟩, ⟨g, rfl, hg⟩, ⟨h, rfl, hh⟩⟩ := hp
  exact List.forall_mem_cons.2 ⟨fun s hs => (hf s hs).within, List.forall_mem_cons.2
    ⟨fun s hs => (hg s hs).within, List.forall_mem_singleton.2 fun s hs => (hh s hs).within⟩⟩

end DrawnProgram

/-- A sample program compiles, and to the same three subroutines, whatever the size and the tape
are. No depth is counted below zero: the trees nest no deeper than the depths that they are drawn
with. -/
theorem text_compiles (size : Nat) (tape : List UInt8) :
    (∀ f ∈ ((program size).run (.ofTape tape)).1.functions, ∀ s ∈ f.body,
      s.Within maxDepth (if f.name.name = "main" then 2 else 1)) ∧
    ∃ a, compile (text size tape) = .ok a ∧
      a.subroutines.map (·.name) = ["scale", "fill", "main"] := by
  have hp : DrawnProgram ((program size).run (.ofTape tape)).1 := always_program size (.ofTape tape)
  refine ⟨hp.within, ?_⟩
  rw [← hp.names]
  exact Program.compile_text hp.formed hp.written hp.wellTyped

end Sample

end Asl
