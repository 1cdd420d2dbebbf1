import Asl.Typing
import Mathlib.Tactic.SplitIfs

/-!
# The nodes of a program

The identities of the nodes are listed in the order in which reading completes the nodes, a program
and a function excepted, whose identities come before those of their parts. Judging an expression
leaves one note for each of its nodes and leaves them in this order, so notes and nodes correspond
one to one; judging a statement leaves notes for the expressions and names inside it.
-/
open scoped List

namespace Asl

mutual

def Expr.ids : Expr → List NodeId
  | .literal m _ => [m.id]
  | .name m x => [x.mark.id, m.id]
  | .element m base index => base.mark.id :: index.ids ++ [m.id]
  | .call m callee args => callee.mark.id :: Expr.idsAll args ++ [m.id]
  | .paren m inner => inner.ids ++ [m.id]
  | .unary m _ operand => operand.ids ++ [m.id]
  | .binary m _ lhs rhs => lhs.ids ++ rhs.ids ++ [m.id]
  | .max m args => Expr.idsAll args ++ [m.id]

def Expr.idsAll : List Expr → List NodeId
  | [] => []
  | e :: es => e.ids ++ Expr.idsAll es

end

def Target.ids : Target → List NodeId
  | .name m x => [x.mark.id, m.id]
  | .element m base index => base.mark.id :: index.ids ++ [m.id]

mutual

def Stmt.ids : Stmt → List NodeId
  | .assign m target value => target.ids ++ value.ids ++ [m.id]
  | .ifThen m condition body => condition.ids ++ Stmt.idsAll body ++ [m.id]
  | .ifElse m condition body otherwise =>
      condition.ids ++ Stmt.idsAll body ++ Stmt.idsAll otherwise ++ [m.id]
  | .while m condition body => condition.ids ++ Stmt.idsAll body ++ [m.id]
  | .for m control range body =>
      control.mark.id :: Expr.idsAll range ++ Stmt.idsAll body ++ [m.id]
  | .call m callee args => callee.mark.id :: Expr.idsAll args ++ [m.id]
  | .read m target => target.ids ++ [m.id]
  | .write m value => value.ids ++ [m.id]
  | .writeText m _ => [m.id]
  | .ret m none => [m.id]
  | .ret m (some value) => value.ids ++ [m.id]

def Stmt.idsAll : List Stmt → List NodeId
  | [] => []
  | s :: ss => s.ids ++ Stmt.idsAll ss

end

def Parameter.ids (p : Parameter) : List NodeId := [p.name.mark.id, p.type.mark.id]

def Declaration.ids (d : Declaration) : List NodeId :=
  d.names.map (·.mark.id) ++ [d.type.mark.id]

def Function.ids (f : Function) : List NodeId :=
  f.mark.id :: f.name.mark.id :: f.params.flatMap Parameter.ids ++
    (f.result.map (·.mark.id)).toList ++ f.declarations.flatMap Declaration.ids ++
    Stmt.idsAll f.body

def Program.ids (p : Program) : List NodeId := p.id :: p.functions.flatMap Function.ids

theorem Expr.mark_mem_ids (e : Expr) : e.mark.id ∈ e.ids := by
  cases e <;> simp [Expr.ids, Expr.mark]

theorem Target.mark_mem_ids (x : Target) : x.mark.id ∈ x.ids := by
  cases x <;> simp [Target.ids, Target.mark]

theorem Expr.ind {motive : Expr → Prop}
    (literal : ∀ m v, motive (.literal m v))
    (name : ∀ m x, motive (.name m x))
    (element : ∀ m base index, motive index → motive (.element m base index))
    (call : ∀ m callee args, (∀ a ∈ args, motive a) → motive (.call m callee args))
    (paren : ∀ m inner, motive inner → motive (.paren m inner))
    (unary : ∀ m op operand, motive operand → motive (.unary m op operand))
    (binary : ∀ m op lhs rhs, motive lhs → motive rhs → motive (.binary m op lhs rhs))
    (max : ∀ m args, (∀ a ∈ args, motive a) → motive (.max m args))
    (e : Expr) : motive e :=
  e.rec (motive_1 := motive) (motive_2 := fun es => ∀ a ∈ es, motive a)
    literal name element call paren unary binary max
    (fun _ h => absurd h List.not_mem_nil)
    (fun _ _ head tail => List.forall_mem_cons.2 ⟨head, tail⟩)

theorem Stmt.ind {motive : Stmt → Prop}
    (assign : ∀ m target value, motive (.assign m target value))
    (ifThen : ∀ m condition body, (∀ s ∈ body, motive s) → motive (.ifThen m condition body))
    (ifElse : ∀ m condition body otherwise, (∀ s ∈ body, motive s) →
      (∀ s ∈ otherwise, motive s) → motive (.ifElse m condition body otherwise))
    (while_ : ∀ m condition body, (∀ s ∈ body, motive s) → motive (.while m condition body))
    (for_ : ∀ m control range body, (∀ s ∈ body, motive s) →
      motive (.for m control range body))
    (call : ∀ m callee args, motive (.call m callee args))
    (read : ∀ m target, motive (.read m target))
    (write : ∀ m value, motive (.write m value))
    (writeText : ∀ m raw, motive (.writeText m raw))
    (ret : ∀ m value, motive (.ret m value))
    (s : Stmt) : motive s :=
  s.rec (motive_1 := motive) (motive_2 := fun ss => ∀ s ∈ ss, motive s)
    assign ifThen ifElse while_ for_ call read write writeText ret
    (fun _ h => absurd h List.not_mem_nil)
    (fun _ _ head tail => List.forall_mem_cons.2 ⟨head, tail⟩)

theorem Expr.idsAll_eq_flatMap (es : List Expr) : Expr.idsAll es = es.flatMap Expr.ids := by
  induction es with
  | nil => rfl
  | cons e es ih => simp only [Expr.idsAll, ih, List.flatMap_cons]

theorem Stmt.idsAll_eq_flatMap (ss : List Stmt) : Stmt.idsAll ss = ss.flatMap Stmt.ids := by
  induction ss with
  | nil => rfl
  | cons s ss ih => simp only [Stmt.idsAll, ih, List.flatMap_cons]

namespace Report

def nodes (r : Report) : List NodeId := r.notes.map Note.node

@[simp] theorem nodes_append (r s : Report) : (r ++ s).nodes = r.nodes ++ s.nodes := by
  simp only [nodes, notes_append, List.map_append]

@[simp] theorem nodes_empty : empty.nodes = [] := rfl

@[simp] theorem nodes_note (m : Mark) (t : Ty) (b : Bool) : (note m t b).nodes = [m.id] := rfl

@[simp] theorem nodes_fault (m : Mark) (f : Fault) : (fault m f).nodes = [] := rfl

@[simp] theorem nodes_faultIf (b : Bool) (m : Mark) (f : Fault) : (faultIf b m f).nodes = [] := by
  cases b <;> rfl

end Report

open Report

@[simp] theorem Judgement.nodes_of (m : Mark) (t : Ty) (b : Bool) (parts : Report) :
    (Judgement.of m t b parts).report.nodes = parts.nodes ++ [m.id] := by
  simp only [Judgement.of, nodes_append, nodes_note]

namespace Context

variable (Γ : Context)

@[simp] theorem nodes_judgeName (x : Ident) : (Γ.judgeName x).report.nodes = [x.mark.id] := by
  unfold judgeName
  split <;> simp

@[simp] theorem nodes_judgeElement (m : Mark) (base : Ident) (array index : Judgement)
    (im : Mark) : (judgeElement m base array index im).report.nodes =
      array.report.nodes ++ index.report.nodes ++ [m.id] := by
  simp only [judgeElement]
  split <;> simp

@[simp] theorem nodes_argumentFaults (callee : String) (k : Nat) (args : List (Mark × Ty))
    (ps : List Ty) : (argumentFaults callee k args ps).nodes = [] := by
  induction args generalizing k ps with
  | nil => rfl
  | cons a args ih =>
    cases ps with
    | nil => rfl
    | cons p ps => simp [argumentFaults, ih]

@[simp] theorem nodes_judgeCall (callee : Ident) (b : Bool) (f : Ty) (args : List (Mark × Ty)) :
    (judgeCall callee b f args).2.nodes = [] := by
  simp only [judgeCall]
  split
  · rfl
  · split
    · rfl
    · split <;> simp

@[simp] theorem nodes_judgeUnary (m : Mark) (op : UnaryOp) (operand : Judgement) :
    (judgeUnary m op operand).report.nodes = operand.report.nodes ++ [m.id] := by
  simp only [judgeUnary]
  split <;> simp

@[simp] theorem nodes_judgeBinary (m : Mark) (op : BinaryOp) (lhs rhs : Judgement) :
    (judgeBinary m op lhs rhs).report.nodes =
      lhs.report.nodes ++ rhs.report.nodes ++ [m.id] := by
  simp only [judgeBinary]
  split
  · simp
  · split <;> simp

@[simp] theorem nodes_judgeMax (m : Mark) (ts : List Ty) (parts : Report) :
    (judgeMax m ts parts).report.nodes = parts.nodes ++ [m.id] := by
  unfold judgeMax
  split_ifs <;> simp

end Context

theorem Expr.nodes_judgeAll {Γ : Context} {es : List Expr}
    (h : ∀ e ∈ es, (e.judge Γ).report.nodes = e.ids) :
    (Expr.judgeAll Γ es).report.nodes = Expr.idsAll es := by
  induction es with
  | nil => rfl
  | cons e es ih =>
    obtain ⟨head, tail⟩ := List.forall_mem_cons.1 h
    simp only [Expr.judgeAll, Expr.idsAll, nodes_append, head, ih tail]

theorem Expr.nodes_judge (Γ : Context) (e : Expr) : (e.judge Γ).report.nodes = e.ids := by
  induction e using Expr.ind with
  | literal m v => simp [Expr.judge, Expr.ids]
  | name m x => simp [Expr.judge, Expr.ids]
  | element m base index ih => simp [Expr.judge, Expr.ids, ih]
  | call m callee args ih => simp [Expr.judge, Expr.ids, Expr.nodes_judgeAll ih]
  | paren m inner ih => simp [Expr.judge, Expr.ids, ih]
  | unary m op operand ih => simp [Expr.judge, Expr.ids, ih]
  | binary m op lhs rhs ihl ihr => simp [Expr.judge, Expr.ids, ihl, ihr]
  | max m args ih => simp [Expr.judge, Expr.ids, Expr.nodes_judgeAll ih]

theorem Target.nodes_judge (Γ : Context) (t : Target) : (t.judge Γ).report.nodes = t.ids := by
  cases t with
  | name m x => simp [Target.judge, Target.ids]
  | element m base index => simp [Target.judge, Target.ids, Expr.nodes_judge]

theorem Expr.nodes_judgeCondition (Γ : Context) (i : String) (e : Expr) :
    (e.judgeCondition Γ i).nodes = e.ids := by
  simp [Expr.judgeCondition, Expr.nodes_judge]

theorem Expr.nodes_judgeRange (Γ : Context) (es : List Expr) :
    (Expr.judgeRange Γ es).nodes = Expr.idsAll es := by
  induction es with
  | nil => rfl
  | cons e es ih => simp [Expr.judgeRange, Expr.idsAll, Expr.nodes_judge, ih]

theorem Stmt.nodes_judgeAll {Γ : Context} {ss : List Stmt}
    (h : ∀ s ∈ ss, (s.judge Γ).nodes <+ s.ids) :
    (Stmt.judgeAll Γ ss).nodes <+ Stmt.idsAll ss := by
  induction ss with
  | nil => exact List.Sublist.slnil
  | cons s ss ih =>
    obtain ⟨head, tail⟩ := List.forall_mem_cons.1 h
    simp only [Stmt.judgeAll, Stmt.idsAll, nodes_append]
    exact head.append (ih tail)

theorem Stmt.nodes_judge (Γ : Context) (s : Stmt) : (s.judge Γ).nodes <+ s.ids := by
  induction s using Stmt.ind with
  | assign m target value =>
    simp [Stmt.judge, Stmt.ids, Target.nodes_judge, Expr.nodes_judge]
  | ifThen m condition body ih =>
    simp only [Stmt.judge, Stmt.ids, nodes_append, Expr.nodes_judgeCondition]
    exact ((List.Sublist.refl _).append (Stmt.nodes_judgeAll ih)).trans
      (List.sublist_append_left _ _)
  | ifElse m condition body otherwise ihb iho =>
    simp only [Stmt.judge, Stmt.ids, nodes_append, Expr.nodes_judgeCondition]
    exact (((List.Sublist.refl _).append (Stmt.nodes_judgeAll ihb)).append
      (Stmt.nodes_judgeAll iho)).trans (List.sublist_append_left _ _)
  | while_ m condition body ih =>
    simp only [Stmt.judge, Stmt.ids, nodes_append, Expr.nodes_judgeCondition]
    exact ((List.Sublist.refl _).append (Stmt.nodes_judgeAll ih)).trans
      (List.sublist_append_left _ _)
  | for_ m control range body ih =>
    simp only [Stmt.judge, Stmt.ids, nodes_append, Context.nodes_judgeName, nodes_faultIf,
      Expr.nodes_judgeRange, List.append_nil, List.singleton_append]
    exact ((List.Sublist.refl _).append (Stmt.nodes_judgeAll ih)).trans
      (List.sublist_append_left _ _)
  | call m callee args =>
    simp [Stmt.judge, Stmt.ids, Expr.nodes_judgeAll fun e _ => Expr.nodes_judge Γ e]
  | read m target => simp [Stmt.judge, Stmt.ids, Target.nodes_judge]
  | write m value => simp [Stmt.judge, Stmt.ids, Expr.nodes_judge]
  | writeText m raw => simp [Stmt.judge, Stmt.ids]
  | ret m value => cases value <;> simp [Stmt.judge, Stmt.ids, Expr.nodes_judge]

theorem Stmt.nodes_judgeAll_sublist (Γ : Context) (ss : List Stmt) :
    (Stmt.judgeAll Γ ss).nodes <+ Stmt.idsAll ss :=
  Stmt.nodes_judgeAll fun s _ => Stmt.nodes_judge Γ s

end Asl
