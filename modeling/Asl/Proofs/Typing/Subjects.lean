import Asl.Proofs.Typing.Located

/-!
# What is judged

The expressions, the targets and the names that stand in a body are its subjects. Judging a body
judges each of its subjects: it notes at the subject's node what the judgement of the subject says,
and it reports everything that is wrong with the subject. So the notes of a body are those of its
subjects, one for each, in their order, and a report of the whole has the reports of the parts in
it.
-/
open scoped List

namespace Asl

inductive Subject
  | name (x : Ident)
  | expr (e : Expr)
  | target (x : Target)

namespace Subject

def mark : Subject → Mark
  | .name x => x.mark
  | .expr e => e.mark
  | .target x => x.mark

def ids : Subject → List NodeId
  | .name x => [x.mark.id]
  | .expr e => e.ids
  | .target x => x.ids

def judge (Γ : Context) : Subject → Judgement
  | .name x => Γ.judgeName x
  | .expr e => e.judge Γ
  | .target x => x.judge Γ

def inner? : Subject → Option Expr
  | .expr (.paren _ inner) => some inner
  | _ => none

def note (Γ : Context) (s : Subject) : Note :=
  ⟨s.mark.id, (s.judge Γ).type, (s.judge Γ).isPlace⟩

end Subject

mutual

/-- The subjects in an expression, each behind those that it is made of. -/
def Expr.subjects : Expr → List Subject
  | .literal m value => [.expr (.literal m value)]
  | .name m x => [.name x, .expr (.name m x)]
  | .element m base index => .name base :: index.subjects ++ [.expr (.element m base index)]
  | .call m callee args =>
      .name callee :: Expr.subjectsAll args ++ [.expr (.call m callee args)]
  | .paren m inner => inner.subjects ++ [.expr (.paren m inner)]
  | .unary m op operand => operand.subjects ++ [.expr (.unary m op operand)]
  | .binary m op lhs rhs => lhs.subjects ++ rhs.subjects ++ [.expr (.binary m op lhs rhs)]
  | .max m args => Expr.subjectsAll args ++ [.expr (.max m args)]

def Expr.subjectsAll : List Expr → List Subject
  | [] => []
  | e :: es => e.subjects ++ Expr.subjectsAll es

end

def Target.subjects : Target → List Subject
  | .name m x => [.name x, .target (.name m x)]
  | .element m base index => .name base :: index.subjects ++ [.target (.element m base index)]

mutual

def Stmt.subjects : Stmt → List Subject
  | .assign _ target value => target.subjects ++ value.subjects
  | .ifThen _ condition body => condition.subjects ++ Stmt.subjectsAll body
  | .ifElse _ condition body otherwise =>
      condition.subjects ++ Stmt.subjectsAll body ++ Stmt.subjectsAll otherwise
  | .while _ condition body => condition.subjects ++ Stmt.subjectsAll body
  | .for _ control range body =>
      .name control :: Expr.subjectsAll range ++ Stmt.subjectsAll body
  | .call _ callee args => .name callee :: Expr.subjectsAll args
  | .read _ target => target.subjects
  | .write _ value => value.subjects
  | .writeText _ _ => []
  | .ret _ none => []
  | .ret _ (some value) => value.subjects

def Stmt.subjectsAll : List Stmt → List Subject
  | [] => []
  | s :: ss => s.subjects ++ Stmt.subjectsAll ss

end

theorem Expr.self_mem_subjects (e : Expr) : .expr e ∈ e.subjects := by
  cases e <;> simp [Expr.subjects]

/-- A report is about some subjects: its notes are theirs, and it has all of their faults. Where
something in parentheses is among the subjects, it is so without them. -/
structure Report.About (Γ : Context) (ss : List Subject) (r : Report) : Prop where
  notes : r.notes = ss.map (Subject.note Γ)
  inner : ∀ s ∈ ss, ∀ e, s.inner? = some e → .expr e ∈ ss
  faults : ∀ s ∈ ss, (s.judge Γ).report.diagnostics ⊆ r.diagnostics

/-- A judgement ends the report of its parts with faults of the whole and the note of the whole. -/
def Judgement.Ends (m : Mark) (parts : Report) (j : Judgement) : Prop :=
  ∃ ds, j.report = parts ++ ⟨[⟨m.id, j.type, j.isPlace⟩], ds⟩

namespace Report

variable {Γ : Context} {ss ss' : List Subject} {r r' : Report}

theorem append_assoc (r₁ r₂ r₃ : Report) : r₁ ++ r₂ ++ r₃ = r₁ ++ (r₂ ++ r₃) := by
  change Report.mk _ _ = Report.mk _ _
  simp only [notes_append, diagnostics_append, List.append_assoc]

theorem notes_faultIf (b : Bool) (m : Mark) (f : Fault) : (faultIf b m f).notes = [] := by
  cases b <;> rfl

theorem about_faults (ds : List Diagnostic) : About Γ [] ⟨[], ds⟩ where
  notes := rfl
  inner _ h := absurd h List.not_mem_nil
  faults _ h := absurd h List.not_mem_nil

theorem about_empty : empty.About Γ [] := about_faults []

theorem About.append (h : r.About Γ ss) (h' : r'.About Γ ss') :
    (r ++ r').About Γ (ss ++ ss') where
  notes := by rw [notes_append, h.notes, h'.notes, List.map_append]
  inner := List.forall_mem_append.2
    ⟨fun s hs e he => List.mem_append_left _ (h.inner s hs e he),
      fun s hs e he => List.mem_append_right _ (h'.inner s hs e he)⟩
  faults := List.forall_mem_append.2
    ⟨fun s hs => List.Subset.trans (h.faults s hs) (List.subset_append_left _ _),
      fun s hs => List.Subset.trans (h'.faults s hs) (List.subset_append_right _ _)⟩

theorem About.append_faults (h : r.About Γ ss) (hr : r'.notes = []) : (r ++ r').About Γ ss := by
  obtain ⟨notes, ds⟩ := r'
  subst hr
  have happend := h.append (about_faults ds)
  rwa [List.append_nil] at happend

theorem About.ends {s : Subject} (h : r.About Γ ss) (hs : (s.judge Γ).Ends s.mark r)
    (hinner : ∀ e, s.inner? = some e → .expr e ∈ ss) :
    (s.judge Γ).report.About Γ (ss ++ [s]) := by
  obtain ⟨ds, hreport⟩ := hs
  refine ⟨?_, fun s' hs' e he => List.mem_append_left _ ?_,
    List.forall_mem_append.2 ⟨fun s' hs' => ?_, fun s' hs' => ?_⟩⟩
  · rw [hreport, notes_append, h.notes, List.map_append]
    rfl
  · rcases List.mem_append.1 hs' with hs' | hs'
    · exact h.inner s' hs' e he
    · rw [List.mem_singleton.1 hs'] at he
      exact hinner e he
  · rw [hreport]
    exact List.Subset.trans (h.faults s' hs') (List.subset_append_left _ _)
  · rw [List.mem_singleton.1 hs']
    exact List.Subset.refl _

end Report

namespace Judgement

variable {m : Mark} {t : Ty} {b : Bool} {parts faults : Report}

theorem ends_of : (of m t b parts).Ends m parts := ⟨[], rfl⟩

theorem ends_of_append (h : faults.notes = []) : (of m t b (parts ++ faults)).Ends m parts := by
  obtain ⟨notes, ds⟩ := faults
  subst h
  exact ⟨ds ++ [], Report.append_assoc _ _ _⟩

end Judgement

namespace Context

open Judgement Report

variable {Γ : Context}

theorem about_judgeName (x : Ident) : (Γ.judgeName x).report.About Γ [.name x] := by
  refine about_empty.ends (s := .name x) ?_ nofun
  change (Γ.judgeName x).Ends x.mark empty
  unfold judgeName
  split
  · exact ends_of
  · have hends : (of x.mark .error true (empty ++ fault x.mark (.undeclared x.name))).Ends x.mark
        empty := ends_of_append rfl
    exact hends

theorem ends_judgeElement (m im : Mark) (base : Ident) (array index : Judgement) :
    (judgeElement m base array index im).Ends m (array.report ++ index.report) := by
  have hnotes : ∀ b c m' f f', (faultIf b base.mark f ++ faultIf c m' f').notes = [] := by
    intro b c m' f f'
    rw [notes_append, notes_faultIf, notes_faultIf, List.append_nil]
  simp only [judgeElement]
  split
  · rw [Report.append_assoc]
    exact ends_of_append (hnotes _ _ _ _ _)
  · rw [Report.append_assoc]
    exact ends_of_append (hnotes _ _ _ _ _)

theorem notes_judgeCall (callee : Ident) (b : Bool) (f : Ty) (args : List (Mark × Ty)) :
    (judgeCall callee b f args).2.notes = [] :=
  List.map_eq_nil_iff.1 (nodes_judgeCall callee b f args)

theorem ends_judgeUnary (m : Mark) (op : UnaryOp) (operand : Judgement) :
    (judgeUnary m op operand).Ends m operand.report := by
  simp only [judgeUnary]
  split
  · exact ends_of
  · exact ends_of_append rfl
  · exact ends_of_append rfl

theorem ends_judgeBinary (m : Mark) (op : BinaryOp) (lhs rhs : Judgement) :
    (judgeBinary m op lhs rhs).Ends m (lhs.report ++ rhs.report) := by
  simp only [judgeBinary]
  split_ifs
  · exact ends_of_append (notes_faultIf _ _ _)
  · exact ends_of_append (notes_faultIf _ _ _)
  · exact ends_of_append (notes_faultIf _ _ _)

theorem ends_judgeMax (m : Mark) (ts : List Ty) (parts : Report) :
    (judgeMax m ts parts).Ends m parts := by
  unfold judgeMax
  split_ifs
  · exact ends_of_append rfl
  · exact ends_of
  · exact ends_of
  · exact ends_of
  · exact ends_of_append rfl

end Context

open Context Judgement Report

variable {Γ : Context}

theorem Expr.about_judgeAll {es : List Expr}
    (h : ∀ e ∈ es, (e.judge Γ).report.About Γ e.subjects) :
    (Expr.judgeAll Γ es).report.About Γ (Expr.subjectsAll es) := by
  induction es with
  | nil => exact about_empty
  | cons e es ih =>
    obtain ⟨he, hes⟩ := List.forall_mem_cons.1 h
    exact he.append (ih hes)

theorem Expr.about_judge (e : Expr) : (e.judge Γ).report.About Γ e.subjects := by
  induction e using Expr.ind with
  | literal m v => exact about_empty.ends (s := .expr (.literal m v)) ends_of nofun
  | name m x => exact (about_judgeName x).ends (s := .expr (.name m x)) ends_of nofun
  | element m base index ih =>
    exact ((about_judgeName base).append ih).ends (s := .expr (.element m base index))
      (ends_judgeElement _ _ _ _ _) nofun
  | call m callee args ih =>
    exact ((about_judgeName callee).append (Expr.about_judgeAll ih)).ends
      (s := .expr (.call m callee args)) (ends_of_append (notes_judgeCall _ _ _ _)) nofun
  | paren m inner ih =>
    refine ih.ends (s := .expr (.paren m inner)) ends_of fun e he => ?_
    cases he
    exact inner.self_mem_subjects
  | unary m op operand ih =>
    exact ih.ends (s := .expr (.unary m op operand)) (ends_judgeUnary _ _ _) nofun
  | binary m op lhs rhs ihl ihr =>
    exact (ihl.append ihr).ends (s := .expr (.binary m op lhs rhs)) (ends_judgeBinary _ _ _ _) nofun
  | max m args ih =>
    exact (Expr.about_judgeAll ih).ends (s := .expr (.max m args)) (ends_judgeMax _ _ _) nofun

theorem Expr.about_all (es : List Expr) :
    (Expr.judgeAll Γ es).report.About Γ (Expr.subjectsAll es) :=
  Expr.about_judgeAll fun e _ => e.about_judge

theorem Target.about_judge (x : Target) : (x.judge Γ).report.About Γ x.subjects := by
  cases x with
  | name m x => exact (about_judgeName x).ends (s := .target (.name m x)) ends_of nofun
  | element m base index =>
    exact ((about_judgeName base).append index.about_judge).ends
      (s := .target (.element m base index)) (ends_judgeElement _ _ _ _ _) nofun

theorem Expr.about_judgeCondition (instruction : String) (e : Expr) :
    (e.judgeCondition Γ instruction).About Γ e.subjects :=
  e.about_judge.append_faults (notes_faultIf _ _ _)

theorem Expr.about_judgeRange (es : List Expr) :
    (Expr.judgeRange Γ es).About Γ (Expr.subjectsAll es) := by
  induction es with
  | nil => exact about_empty
  | cons e es ih => exact (e.about_judge.append_faults (notes_faultIf _ _ _)).append ih

theorem Stmt.about_judgeAll {ss : List Stmt} (h : ∀ s ∈ ss, (s.judge Γ).About Γ s.subjects) :
    (Stmt.judgeAll Γ ss).About Γ (Stmt.subjectsAll ss) := by
  induction ss with
  | nil => exact about_empty
  | cons s ss ih =>
    obtain ⟨hs, hss⟩ := List.forall_mem_cons.1 h
    exact hs.append (ih hss)

theorem Stmt.about_judge (s : Stmt) : (s.judge Γ).About Γ s.subjects := by
  induction s using Stmt.ind with
  | assign m target value =>
    exact ((target.about_judge.append value.about_judge).append_faults
      (notes_faultIf _ _ _)).append_faults (notes_faultIf _ _ _)
  | ifThen m condition body ih =>
    exact (condition.about_judgeCondition "if").append (Stmt.about_judgeAll ih)
  | ifElse m condition body otherwise ihb iho =>
    exact ((condition.about_judgeCondition "if").append (Stmt.about_judgeAll ihb)).append
      (Stmt.about_judgeAll iho)
  | while_ m condition body ih =>
    exact (condition.about_judgeCondition "while").append (Stmt.about_judgeAll ih)
  | for_ m control range body ih =>
    exact ((((about_judgeName control).append_faults (notes_faultIf _ _ _)).append_faults
      (notes_faultIf _ _ _)).append (Expr.about_judgeRange range)).append (Stmt.about_judgeAll ih)
  | call m callee args =>
    exact ((about_judgeName callee).append (Expr.about_all args)).append_faults
      (notes_judgeCall _ _ _ _)
  | read m target =>
    exact (target.about_judge.append_faults (notes_faultIf _ _ _)).append_faults
      (notes_faultIf _ _ _)
  | write m value => exact value.about_judge.append_faults (notes_faultIf _ _ _)
  | writeText m raw => exact about_empty
  | ret m value =>
    cases value with
    | none => exact about_empty.append_faults (notes_faultIf _ _ _)
    | some value => exact value.about_judge.append_faults (notes_faultIf _ _ _)

theorem Stmt.about_all (Γ : Context) (ss : List Stmt) :
    (Stmt.judgeAll Γ ss).About Γ (Stmt.subjectsAll ss) :=
  Stmt.about_judgeAll fun s _ => s.about_judge

end Asl
