import Asl.Proofs.Tree.Nodes

/-!
# The marks of a program

The marks of a tree stand in the order of its nodes. A mark has the identity of its node and the
offsets at which the node starts and stops; the identities are the nodes of the tree, so where these
are distinct a mark is known by its identity.
-/
open scoped List

namespace Asl

mutual

def Expr.marks : Expr → List Mark
  | .literal m _ => [m]
  | .name m x => [x.mark, m]
  | .element m base index => base.mark :: index.marks ++ [m]
  | .call m callee args => callee.mark :: Expr.marksAll args ++ [m]
  | .paren m inner => inner.marks ++ [m]
  | .unary m _ operand => operand.marks ++ [m]
  | .binary m _ lhs rhs => lhs.marks ++ rhs.marks ++ [m]
  | .max m args => Expr.marksAll args ++ [m]

def Expr.marksAll : List Expr → List Mark
  | [] => []
  | e :: es => e.marks ++ Expr.marksAll es

end

def Target.marks : Target → List Mark
  | .name m x => [x.mark, m]
  | .element m base index => base.mark :: index.marks ++ [m]

mutual

def Stmt.marks : Stmt → List Mark
  | .assign m target value => target.marks ++ value.marks ++ [m]
  | .ifThen m condition body => condition.marks ++ Stmt.marksAll body ++ [m]
  | .ifElse m condition body otherwise =>
      condition.marks ++ Stmt.marksAll body ++ Stmt.marksAll otherwise ++ [m]
  | .while m condition body => condition.marks ++ Stmt.marksAll body ++ [m]
  | .for m control range body =>
      control.mark :: Expr.marksAll range ++ Stmt.marksAll body ++ [m]
  | .call m callee args => callee.mark :: Expr.marksAll args ++ [m]
  | .read m target => target.marks ++ [m]
  | .write m value => value.marks ++ [m]
  | .writeText m _ => [m]
  | .ret m none => [m]
  | .ret m (some value) => value.marks ++ [m]

def Stmt.marksAll : List Stmt → List Mark
  | [] => []
  | s :: ss => s.marks ++ Stmt.marksAll ss

end

def Parameter.marks (p : Parameter) : List Mark := [p.name.mark, p.type.mark]

def Declaration.marks (d : Declaration) : List Mark := d.names.map Ident.mark ++ [d.type.mark]

def Function.headerMarks (f : Function) : List Mark :=
  f.mark :: f.name.mark :: f.params.flatMap Parameter.marks ++ (f.result.map (·.mark)).toList ++
    f.declarations.flatMap Declaration.marks

def Function.marks (f : Function) : List Mark := f.headerMarks ++ Stmt.marksAll f.body

theorem Expr.map_id_marksAll {es : List Expr} (h : ∀ e ∈ es, e.marks.map Mark.id = e.ids) :
    (Expr.marksAll es).map Mark.id = Expr.idsAll es := by
  induction es with
  | nil => rfl
  | cons e es ih =>
    obtain ⟨he, hes⟩ := List.forall_mem_cons.1 h
    rw [Expr.marksAll, Expr.idsAll, List.map_append, he, ih hes]

theorem Expr.map_id_marks (e : Expr) : e.marks.map Mark.id = e.ids := by
  induction e using Expr.ind with
  | literal m v => rfl
  | name m x => rfl
  | element m base index ih => simp [Expr.marks, Expr.ids, ih]
  | call m callee args ih => simp [Expr.marks, Expr.ids, Expr.map_id_marksAll ih]
  | paren m inner ih => simp [Expr.marks, Expr.ids, ih]
  | unary m op operand ih => simp [Expr.marks, Expr.ids, ih]
  | binary m op lhs rhs ihl ihr => simp [Expr.marks, Expr.ids, ihl, ihr]
  | max m args ih => simp [Expr.marks, Expr.ids, Expr.map_id_marksAll ih]

theorem Expr.map_id_all (es : List Expr) : (Expr.marksAll es).map Mark.id = Expr.idsAll es :=
  Expr.map_id_marksAll fun e _ => e.map_id_marks

theorem Target.map_id_marks (x : Target) : x.marks.map Mark.id = x.ids := by
  cases x with
  | name m x => rfl
  | element m base index => simp [Target.marks, Target.ids, Expr.map_id_marks]

theorem Stmt.map_id_marksAll {ss : List Stmt} (h : ∀ s ∈ ss, s.marks.map Mark.id = s.ids) :
    (Stmt.marksAll ss).map Mark.id = Stmt.idsAll ss := by
  induction ss with
  | nil => rfl
  | cons s ss ih =>
    obtain ⟨hs, hss⟩ := List.forall_mem_cons.1 h
    rw [Stmt.marksAll, Stmt.idsAll, List.map_append, hs, ih hss]

theorem Stmt.map_id_marks (s : Stmt) : s.marks.map Mark.id = s.ids := by
  induction s using Stmt.ind with
  | assign m target value =>
    simp [Stmt.marks, Stmt.ids, Target.map_id_marks, Expr.map_id_marks]
  | ifThen m condition body ih =>
    simp [Stmt.marks, Stmt.ids, Expr.map_id_marks, Stmt.map_id_marksAll ih]
  | ifElse m condition body otherwise ihb iho =>
    simp [Stmt.marks, Stmt.ids, Expr.map_id_marks, Stmt.map_id_marksAll ihb,
      Stmt.map_id_marksAll iho]
  | while_ m condition body ih =>
    simp [Stmt.marks, Stmt.ids, Expr.map_id_marks, Stmt.map_id_marksAll ih]
  | for_ m control range body ih =>
    simp [Stmt.marks, Stmt.ids, Expr.map_id_all, Stmt.map_id_marksAll ih]
  | call m callee args => simp [Stmt.marks, Stmt.ids, Expr.map_id_all]
  | read m target => simp [Stmt.marks, Stmt.ids, Target.map_id_marks]
  | write m value => simp [Stmt.marks, Stmt.ids, Expr.map_id_marks]
  | writeText m raw => rfl
  | ret m value => cases value <;> simp [Stmt.marks, Stmt.ids, Expr.map_id_marks]

theorem Stmt.map_id_all (ss : List Stmt) : (Stmt.marksAll ss).map Mark.id = Stmt.idsAll ss :=
  Stmt.map_id_marksAll fun s _ => s.map_id_marks

theorem Function.map_id_marks (f : Function) : f.marks.map Mark.id = f.ids := by
  have hresult : ((f.result.map (·.mark)).toList).map Mark.id =
      (f.result.map (·.mark.id)).toList := by
    cases f.result <;> rfl
  have hparams : (f.params.flatMap Parameter.marks).map Mark.id =
      f.params.flatMap Parameter.ids := by
    rw [List.map_flatMap]
    rfl
  have hdeclarations : (f.declarations.flatMap Declaration.marks).map Mark.id =
      f.declarations.flatMap Declaration.ids := by
    rw [List.map_flatMap]
    simp only [Declaration.marks, List.map_append, List.map_map]
    rfl
  simp only [marks, headerMarks, ids, List.map_append, List.map_cons, hresult, hparams,
    hdeclarations, Stmt.map_id_all]

theorem Program.map_id_marks (p : Program) :
    (p.functions.flatMap Function.marks).map Mark.id = p.functions.flatMap Function.ids := by
  rw [List.map_flatMap]
  simp only [Function.map_id_marks]

end Asl
