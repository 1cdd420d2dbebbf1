import Asl.Code.Lowering
import Asl.Typing

/-!
# Notes that lowering reads

Lowering asks for the types of nodes that the checker has noted. If every note of a report can be
read back, then so can the notes of its parts, and the type that is read for an expression is the
one that the checker found for it. This holds whatever has been reported.
-/
namespace Asl

def Lowering.Reads (Λ : Lowering) (r : Report) : Prop :=
  ∀ n ∈ r.notes, Λ.typeOf n.node = .ok n.type

variable {Λ : Lowering} {Γ : Context}

namespace Lowering

theorem reads_append {r r' : Report} : Λ.Reads (r ++ r') ↔ Λ.Reads r ∧ Λ.Reads r' := by
  simp only [Reads, Report.notes_append, List.forall_mem_append]

theorem reads_of {m : Mark} {t : Ty} {b : Bool} {parts : Report} :
    Λ.Reads (Judgement.of m t b parts).report ↔ Λ.Reads parts ∧ Λ.typeOf m.id = .ok t := by
  rw [Judgement.of, reads_append]
  refine and_congr_right fun _ => ?_
  simp [Reads, Report.note]

end Lowering

open Lowering

/-- A judgement that is the note of a node behind, among others, what some parts brought to light.
-/
def Judgement.Behind (j : Judgement) (m : Mark) (inner : Report) : Prop :=
  ∃ t b parts, j = .of m t b parts ∧ inner.notes ⊆ parts.notes

theorem Judgement.Behind.reads {j : Judgement} {m : Mark} {inner : Report} (hj : j.Behind m inner)
    (h : Λ.Reads j.report) : Λ.Reads inner ∧ Λ.typeOf m.id = .ok j.type := by
  obtain ⟨t, b, parts, hof, hinner⟩ := hj
  rw [hof] at h ⊢
  obtain ⟨hparts, hm⟩ := reads_of.1 h
  exact ⟨fun n hn => hparts n (hinner hn), hm⟩

namespace Context

theorem judgeElement_behind (m : Mark) (base : Ident) (array index : Judgement) (im : Mark) :
    (judgeElement m base array index im).Behind m index.report := by
  simp only [judgeElement]
  split
  · exact ⟨_, _, _, rfl, fun n hn => by simp [hn]⟩
  · exact ⟨_, _, _, rfl, fun n hn => by simp [hn]⟩

theorem judgeUnary_behind (m : Mark) (op : UnaryOp) (operand : Judgement) :
    (judgeUnary m op operand).Behind m operand.report := by
  simp only [judgeUnary]
  split
  · exact ⟨_, _, _, rfl, fun n hn => hn⟩
  · exact ⟨_, _, _, rfl, fun n hn => by simp [hn]⟩
  · exact ⟨_, _, _, rfl, fun n hn => by simp [hn]⟩

theorem judgeBinary_behind (m : Mark) (op : BinaryOp) (lhs rhs : Judgement) :
    (judgeBinary m op lhs rhs).Behind m (lhs.report ++ rhs.report) := by
  simp only [judgeBinary]
  split
  · exact ⟨_, _, _, rfl, fun n hn => List.mem_append_left _ hn⟩
  · split
    · exact ⟨_, _, _, rfl, fun n hn => List.mem_append_left _ hn⟩
    · exact ⟨_, _, _, rfl, fun n hn => List.mem_append_left _ hn⟩

theorem judgeMax_behind (m : Mark) (ts : List Ty) (parts : Report) :
    (judgeMax m ts parts).Behind m parts := by
  unfold judgeMax
  split
  · exact ⟨_, _, _, rfl, fun n hn => List.mem_append_left _ hn⟩
  · split
    · exact ⟨_, _, _, rfl, fun n hn => hn⟩
    · split
      · exact ⟨_, _, _, rfl, fun n hn => hn⟩
      · split
        · exact ⟨_, _, _, rfl, fun n hn => hn⟩
        · exact ⟨_, _, _, rfl, fun n hn => List.mem_append_left _ hn⟩

end Context

open Context

namespace Expr

def Noted (Λ : Lowering) (Γ : Context) (e : Expr) : Prop := Λ.Reads (e.judge Γ).report

theorem Noted.typeOf {e : Expr} (h : e.Noted Λ Γ) :
    Λ.typeOf e.mark.id = .ok (e.judge Γ).type := by
  cases e with
  | literal m v => exact (reads_of.1 h).2
  | name m x => exact (reads_of.1 h).2
  | element m base index => exact ((judgeElement_behind ..).reads h).2
  | call m callee args => exact (reads_of.1 h).2
  | paren m inner => exact (reads_of.1 h).2
  | unary m op operand => exact ((judgeUnary_behind ..).reads h).2
  | binary m op lhs rhs => exact ((judgeBinary_behind ..).reads h).2
  | max m args => exact ((judgeMax_behind ..).reads h).2

theorem noted_all {es : List Expr} (h : Λ.Reads (Expr.judgeAll Γ es).report) :
    ∀ e ∈ es, e.Noted Λ Γ := by
  induction es with
  | nil => exact fun _ h => absurd h List.not_mem_nil
  | cons e es ih =>
    obtain ⟨head, tail⟩ := reads_append.1 h
    exact List.forall_mem_cons.2 ⟨head, ih tail⟩

variable {m : Mark}

theorem Noted.index {base : Ident} {index : Expr} (h : (Expr.element m base index).Noted Λ Γ) :
    index.Noted Λ Γ := ((judgeElement_behind ..).reads h).1

theorem Noted.inner {inner : Expr} (h : (Expr.paren m inner).Noted Λ Γ) : inner.Noted Λ Γ :=
  (reads_of.1 h).1

theorem Noted.operand {op : UnaryOp} {operand : Expr} (h : (Expr.unary m op operand).Noted Λ Γ) :
    operand.Noted Λ Γ := ((judgeUnary_behind ..).reads h).1

theorem Noted.operands {op : BinaryOp} {lhs rhs : Expr}
    (h : (Expr.binary m op lhs rhs).Noted Λ Γ) : lhs.Noted Λ Γ ∧ rhs.Noted Λ Γ :=
  reads_append.1 ((judgeBinary_behind ..).reads h).1

theorem Noted.callArgs {callee : Ident} {args : List Expr}
    (h : (Expr.call m callee args).Noted Λ Γ) : ∀ a ∈ args, a.Noted Λ Γ := by
  have hparts := (reads_of.1 h).1
  exact noted_all (reads_append.1 (reads_append.1 hparts).1).2

theorem Noted.maxArgs {args : List Expr} (h : (Expr.max m args).Noted Λ Γ) :
    ∀ a ∈ args, a.Noted Λ Γ :=
  noted_all ((judgeMax_behind ..).reads h).1

end Expr

theorem Target.typeOf_of_reads {x : Target} (h : Λ.Reads (x.judge Γ).report) :
    Λ.typeOf x.mark.id = .ok (x.judge Γ).type := by
  cases x with
  | name m x => exact (reads_of.1 h).2
  | element m base index => exact ((judgeElement_behind ..).reads h).2

theorem Target.noted_index {m : Mark} {base : Ident} {index : Expr}
    (h : Λ.Reads ((Target.element m base index).judge Γ).report) : index.Noted Λ Γ :=
  ((judgeElement_behind ..).reads h).1

theorem Expr.noted_of_condition {instruction : String} {e : Expr}
    (h : Λ.Reads (e.judgeCondition Γ instruction)) : e.Noted Λ Γ := (reads_append.1 h).1

theorem Expr.noted_of_range {es : List Expr} (h : Λ.Reads (Expr.judgeRange Γ es)) :
    ∀ e ∈ es, e.Noted Λ Γ := by
  induction es with
  | nil => exact fun _ h => absurd h List.not_mem_nil
  | cons e es ih =>
    obtain ⟨head, tail⟩ := reads_append.1 h
    exact List.forall_mem_cons.2 ⟨(reads_append.1 head).1, ih tail⟩

namespace Stmt

def Noted (Λ : Lowering) (Γ : Context) (s : Stmt) : Prop := Λ.Reads (s.judge Γ)

theorem noted_all {ss : List Stmt} (h : Λ.Reads (Stmt.judgeAll Γ ss)) :
    ∀ s ∈ ss, s.Noted Λ Γ := by
  induction ss with
  | nil => exact fun _ h => absurd h List.not_mem_nil
  | cons s ss ih =>
    obtain ⟨head, tail⟩ := reads_append.1 h
    exact List.forall_mem_cons.2 ⟨head, ih tail⟩

variable {m : Mark}

theorem Noted.assign {target : Target} {value : Expr} (h : (Stmt.assign m target value).Noted Λ Γ) :
    Λ.Reads (target.judge Γ).report ∧ value.Noted Λ Γ :=
  reads_append.1 (reads_append.1 (reads_append.1 h).1).1

theorem Noted.ifThen {condition : Expr} {body : List Stmt}
    (h : (Stmt.ifThen m condition body).Noted Λ Γ) :
    condition.Noted Λ Γ ∧ ∀ s ∈ body, s.Noted Λ Γ := by
  obtain ⟨hc, hb⟩ := reads_append.1 h
  exact ⟨Expr.noted_of_condition hc, noted_all hb⟩

theorem Noted.ifElse {condition : Expr} {body otherwise : List Stmt}
    (h : (Stmt.ifElse m condition body otherwise).Noted Λ Γ) :
    condition.Noted Λ Γ ∧ (∀ s ∈ body, s.Noted Λ Γ) ∧ ∀ s ∈ otherwise, s.Noted Λ Γ := by
  obtain ⟨hcb, ho⟩ := reads_append.1 h
  obtain ⟨hc, hb⟩ := reads_append.1 hcb
  exact ⟨Expr.noted_of_condition hc, noted_all hb, noted_all ho⟩

theorem Noted.while_ {condition : Expr} {body : List Stmt}
    (h : (Stmt.while m condition body).Noted Λ Γ) :
    condition.Noted Λ Γ ∧ ∀ s ∈ body, s.Noted Λ Γ := by
  obtain ⟨hc, hb⟩ := reads_append.1 h
  exact ⟨Expr.noted_of_condition hc, noted_all hb⟩

theorem Noted.for_ {control : Ident} {range : List Expr} {body : List Stmt}
    (h : (Stmt.for m control range body).Noted Λ Γ) :
    (∀ e ∈ range, e.Noted Λ Γ) ∧ ∀ s ∈ body, s.Noted Λ Γ := by
  obtain ⟨hrange, hb⟩ := reads_append.1 h
  exact ⟨Expr.noted_of_range (reads_append.1 hrange).2, noted_all hb⟩

theorem Noted.callArgs {callee : Ident} {args : List Expr}
    (h : (Stmt.call m callee args).Noted Λ Γ) : ∀ a ∈ args, a.Noted Λ Γ :=
  Expr.noted_all (reads_append.1 (reads_append.1 h).1).2

theorem Noted.read {target : Target} (h : (Stmt.read m target).Noted Λ Γ) :
    Λ.Reads (target.judge Γ).report := (reads_append.1 (reads_append.1 h).1).1

theorem Noted.write {value : Expr} (h : (Stmt.write m value).Noted Λ Γ) : value.Noted Λ Γ :=
  (reads_append.1 h).1

theorem Noted.ret {value : Expr} (h : (Stmt.ret m (some value)).Noted Λ Γ) : value.Noted Λ Γ :=
  (reads_append.1 h).1

end Stmt

end Asl
