import Asl.Proofs.Typing.Subjects

/-!
# Names that nothing declares

The undeclared names that a report of a body speaks of are those that stand in the body and mean
nothing there, each as often as it stands there and in the order in which it does.
-/
namespace Asl

def Fault.isUndeclared : Fault → Bool
  | .undeclared _ => true
  | _ => false

def Subject.names : List Subject → List Ident
  | [] => []
  | .name x :: ss => x :: names ss
  | .expr _ :: ss | .target _ :: ss => names ss

@[simp] theorem Subject.names_append (ss ss' : List Subject) :
    names (ss ++ ss') = names ss ++ names ss' := by
  induction ss with
  | nil => rfl
  | cons s ss ih => cases s <;> simp [names, ih]

theorem Subject.mem_names {ss : List Subject} {x : Ident} : x ∈ names ss ↔ .name x ∈ ss := by
  induction ss with
  | nil => exact iff_of_false List.not_mem_nil List.not_mem_nil
  | cons s ss ih => cases s <;> simp [names, ih]

/-- The faults of names, where nothing declares them. -/
def Context.undeclared (Γ : Context) (xs : List Ident) : List Diagnostic :=
  (xs.filter fun x => (Γ.meaning x.name).isNone).map fun x => ⟨x.mark, .undeclared x.name⟩

@[simp] theorem Context.undeclared_append (Γ : Context) (xs ys : List Ident) :
    Γ.undeclared (xs ++ ys) = Γ.undeclared xs ++ Γ.undeclared ys := by
  simp only [undeclared, List.filter_append, List.map_append]

@[simp] theorem Context.undeclared_nil (Γ : Context) : Γ.undeclared [] = [] := rfl

namespace Report

def undeclared (r : Report) : List Diagnostic := r.diagnostics.filter (·.fault.isUndeclared)

@[simp] theorem undeclared_append (r s : Report) :
    (r ++ s).undeclared = r.undeclared ++ s.undeclared := List.filter_append _ _

@[simp] theorem undeclared_empty : empty.undeclared = [] := rfl

@[simp] theorem undeclared_note (m : Mark) (t : Ty) (b : Bool) : (note m t b).undeclared = [] := rfl

@[simp] theorem undeclared_fault (m : Mark) (f : Fault) :
    (fault m f).undeclared = if f.isUndeclared then [⟨m, f⟩] else [] := by
  cases hf : f.isUndeclared <;> simp [undeclared, fault, hf]

@[simp] theorem undeclared_faultIf (b : Bool) (m : Mark) (f : Fault) :
    (faultIf b m f).undeclared = if f.isUndeclared && b then [⟨m, f⟩] else [] := by
  cases b
  · simp [faultIf]
  · simp [faultIf]

end Report

open Report

@[simp] theorem Judgement.undeclared_of (m : Mark) (t : Ty) (b : Bool) (parts : Report) :
    (Judgement.of m t b parts).report.undeclared = parts.undeclared := by
  simp [Judgement.of]

namespace Context

variable (Γ : Context)

@[simp] theorem undeclared_cons (x : Ident) (xs : List Ident) :
    Γ.undeclared (x :: xs) = (Γ.judgeName x).report.undeclared ++ Γ.undeclared xs := by
  unfold judgeName
  cases hx : Γ.meaning x.name with
  | none => simp [undeclared, hx, Fault.isUndeclared]
  | some m => simp [undeclared, hx]

@[simp] theorem undeclared_judgeElement (m im : Mark) (base : Ident) (array index : Judgement) :
    (judgeElement m base array index im).report.undeclared =
      array.report.undeclared ++ index.report.undeclared := by
  simp only [judgeElement]
  split <;> simp [Fault.isUndeclared]

@[simp] theorem undeclared_argumentFaults (callee : String) (position : Nat)
    (args : List (Mark × Ty)) (ps : List Ty) :
    (argumentFaults callee position args ps).undeclared = [] := by
  induction args generalizing position ps with
  | nil => rfl
  | cons a args ih =>
    cases ps with
    | nil => rfl
    | cons p ps => simp [argumentFaults, Fault.isUndeclared, ih]

@[simp] theorem undeclared_judgeCall (callee : Ident) (asValue : Bool) (f : Ty)
    (args : List (Mark × Ty)) : (judgeCall callee asValue f args).2.undeclared = [] := by
  simp only [judgeCall]
  split_ifs <;> simp [Fault.isUndeclared]

@[simp] theorem undeclared_judgeUnary (m : Mark) (op : UnaryOp) (operand : Judgement) :
    (judgeUnary m op operand).report.undeclared = operand.report.undeclared := by
  simp only [judgeUnary]
  split <;> simp [Fault.isUndeclared]

@[simp] theorem undeclared_judgeBinary (m : Mark) (op : BinaryOp) (lhs rhs : Judgement) :
    (judgeBinary m op lhs rhs).report.undeclared =
      lhs.report.undeclared ++ rhs.report.undeclared := by
  simp only [judgeBinary]
  split_ifs <;> simp [Fault.isUndeclared]

@[simp] theorem undeclared_judgeMax (m : Mark) (ts : List Ty) (parts : Report) :
    (judgeMax m ts parts).report.undeclared = parts.undeclared := by
  unfold judgeMax
  split_ifs <;> simp [Fault.isUndeclared]

end Context

variable {Γ : Context}

theorem Expr.undeclared_judgeAll {es : List Expr}
    (h : ∀ e ∈ es, (e.judge Γ).report.undeclared = Γ.undeclared (Subject.names e.subjects)) :
    (Expr.judgeAll Γ es).report.undeclared =
      Γ.undeclared (Subject.names (Expr.subjectsAll es)) := by
  induction es with
  | nil => rfl
  | cons e es ih =>
    obtain ⟨he, hes⟩ := List.forall_mem_cons.1 h
    simp [Expr.judgeAll, Expr.subjectsAll, he, ih hes]

theorem Expr.undeclared_judge (e : Expr) :
    (e.judge Γ).report.undeclared = Γ.undeclared (Subject.names e.subjects) := by
  induction e using Expr.ind with
  | literal m v => simp [Expr.judge, Expr.subjects, Subject.names]
  | name m x => simp [Expr.judge, Expr.subjects, Subject.names]
  | element m base index ih =>
    simp [Expr.judge, Expr.subjects, Subject.names, ih]
  | call m callee args ih =>
    simp [Expr.judge, Expr.subjects, Subject.names,
      Expr.undeclared_judgeAll ih]
  | paren m inner ih => simp [Expr.judge, Expr.subjects, Subject.names, ih]
  | unary m op operand ih => simp [Expr.judge, Expr.subjects, Subject.names, ih]
  | binary m op lhs rhs ihl ihr => simp [Expr.judge, Expr.subjects, Subject.names, ihl, ihr]
  | max m args ih => simp [Expr.judge, Expr.subjects, Subject.names, Expr.undeclared_judgeAll ih]

theorem Expr.undeclared_all (es : List Expr) : (Expr.judgeAll Γ es).report.undeclared =
    Γ.undeclared (Subject.names (Expr.subjectsAll es)) :=
  Expr.undeclared_judgeAll fun e _ => e.undeclared_judge

theorem Target.undeclared_judge (x : Target) :
    (x.judge Γ).report.undeclared = Γ.undeclared (Subject.names x.subjects) := by
  cases x with
  | name m x => simp [Target.judge, Target.subjects, Subject.names]
  | element m base index =>
    simp [Target.judge, Target.subjects, Subject.names,
      Expr.undeclared_judge]

theorem Expr.undeclared_judgeCondition (instruction : String) (e : Expr) :
    (e.judgeCondition Γ instruction).undeclared = Γ.undeclared (Subject.names e.subjects) := by
  simp [Expr.judgeCondition, Fault.isUndeclared, Expr.undeclared_judge]

theorem Expr.undeclared_judgeRange (es : List Expr) :
    (Expr.judgeRange Γ es).undeclared = Γ.undeclared (Subject.names (Expr.subjectsAll es)) := by
  induction es with
  | nil => rfl
  | cons e es ih =>
    simp [Expr.judgeRange, Fault.isUndeclared, Expr.subjectsAll, Expr.undeclared_judge, ih]

theorem Stmt.undeclared_judgeAll {ss : List Stmt}
    (h : ∀ s ∈ ss, (s.judge Γ).undeclared = Γ.undeclared (Subject.names s.subjects)) :
    (Stmt.judgeAll Γ ss).undeclared = Γ.undeclared (Subject.names (Stmt.subjectsAll ss)) := by
  induction ss with
  | nil => rfl
  | cons s ss ih =>
    obtain ⟨hs, hss⟩ := List.forall_mem_cons.1 h
    simp [Stmt.judgeAll, Stmt.subjectsAll, hs, ih hss]

theorem Stmt.undeclared_judge (s : Stmt) :
    (s.judge Γ).undeclared = Γ.undeclared (Subject.names s.subjects) := by
  induction s using Stmt.ind with
  | assign m target value =>
    simp [Stmt.judge, Fault.isUndeclared, Stmt.subjects, Target.undeclared_judge,
      Expr.undeclared_judge]
  | ifThen m condition body ih =>
    simp [Stmt.judge, Stmt.subjects, Expr.undeclared_judgeCondition, Stmt.undeclared_judgeAll ih]
  | ifElse m condition body otherwise ihb iho =>
    simp [Stmt.judge, Stmt.subjects, Expr.undeclared_judgeCondition, Stmt.undeclared_judgeAll ihb,
      Stmt.undeclared_judgeAll iho]
  | while_ m condition body ih =>
    simp [Stmt.judge, Stmt.subjects, Expr.undeclared_judgeCondition, Stmt.undeclared_judgeAll ih]
  | for_ m control range body ih =>
    simp [Stmt.judge, Fault.isUndeclared, Stmt.subjects, Subject.names,
      Expr.undeclared_judgeRange, Stmt.undeclared_judgeAll ih]
  | call m callee args =>
    simp [Stmt.judge, Stmt.subjects, Subject.names, Expr.undeclared_all]
  | read m target => simp [Stmt.judge, Fault.isUndeclared, Stmt.subjects, Target.undeclared_judge]
  | write m value => simp [Stmt.judge, Fault.isUndeclared, Stmt.subjects, Expr.undeclared_judge]
  | writeText m raw => rfl
  | ret m value =>
    cases value <;>
      simp [Stmt.judge, Fault.isUndeclared, Stmt.subjects, Subject.names, Expr.undeclared_judge]

theorem Stmt.undeclared_all (Γ : Context) (ss : List Stmt) :
    (Stmt.judgeAll Γ ss).undeclared = Γ.undeclared (Subject.names (Stmt.subjectsAll ss)) :=
  Stmt.undeclared_judgeAll fun s _ => s.undeclared_judge

end Asl
