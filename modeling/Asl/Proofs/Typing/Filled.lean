import Asl.Proofs.Tree.Kinds
import Asl.Proofs.Typing.Rules

/-!
# Well typed trees are filled

A maximum has a type only if it has two operands, so no expression of a well typed tree is a maximum
of nothing.
-/
namespace Asl

theorem exists_of_forall₂ {α β : Type} {R : α → β → Prop} {xs : List α} {ys : List β}
    (h : List.Forall₂ R xs ys) : ∀ x ∈ xs, ∃ y, R x y := by
  induction h with
  | nil => exact fun x hx => absurd hx List.not_mem_nil
  | cons head _ ih => exact List.forall_mem_cons.2 ⟨⟨_, head⟩, ih⟩

theorem Expr.HasType.filled {Γ : Context} {e : Expr} {t : Ty} (h : e.HasType Γ t) :
    e.Each Filled := by
  induction e using Expr.ind generalizing t with
  | literal m v => exact Expr.each_literal.2 trivial
  | name m x => exact Expr.each_name.2 trivial
  | element m base index ih =>
    cases h with
    | element _ hindex => exact Expr.each_element.2 ⟨trivial, ih hindex⟩
  | call m callee args ih =>
    cases h with
    | call _ htypes _ _ =>
      refine Expr.each_call.2 ⟨trivial, fun a ha => ?_⟩
      obtain ⟨u, hu⟩ := exists_of_forall₂ htypes a ha
      exact ih a ha hu
  | paren m inner ih =>
    cases h with
    | paren hinner => exact Expr.each_paren.2 ⟨trivial, ih hinner⟩
  | unary m op operand ih =>
    cases h with
    | unary hoperand _ => exact Expr.each_unary.2 ⟨trivial, ih hoperand⟩
  | binary m op lhs rhs ihl ihr =>
    cases h with
    | binary hl hr _ => exact Expr.each_binary.2 ⟨trivial, ihl hl, ihr hr⟩
  | max m args ih =>
    cases h with
    | max hcount htypes _ =>
      have hargs : args ≠ [] := List.ne_nil_of_length_pos (Nat.lt_of_lt_of_le Nat.two_pos hcount)
      refine Expr.each_max.2 ⟨hargs, fun a ha => ?_⟩
      obtain ⟨u, hu⟩ := exists_of_forall₂ htypes a ha
      exact ih a ha hu

theorem Target.HasType.filled {Γ : Context} {x : Target} {t : Ty} (h : x.HasType Γ t) :
    ∀ e ∈ x.exprs, e.Filled := by
  cases h with
  | name => exact fun e he => absurd he List.not_mem_nil
  | element _ hindex => exact hindex.filled

theorem Stmt.filled_body {ss : List Stmt} (h : ∀ s ∈ ss, ∀ e ∈ s.exprs, e.Filled) :
    ∀ e ∈ Stmt.exprsAll ss, e.Filled := by
  rw [Stmt.exprsAll_eq_flatMap, List.forall_mem_flatMap]
  exact h

theorem Stmt.Ok.filled {Γ : Context} {s : Stmt} (h : s.Ok Γ) : ∀ e ∈ s.exprs, e.Filled := by
  induction s using Stmt.ind with
  | assign m target value =>
    cases h with
    | assign ht hv _ => exact List.forall_mem_append.2 ⟨ht.filled, hv.filled⟩
  | ifThen m condition body ih =>
    cases h with
    | ifThen hc hb =>
      have hbody := Stmt.filled_body fun s hs => ih s hs (hb s hs)
      exact List.forall_mem_append.2 ⟨hc.filled, hbody⟩
  | ifElse m condition body otherwise ihb iho =>
    cases h with
    | ifElse hc hb ho =>
      have hbody := Stmt.filled_body fun s hs => ihb s hs (hb s hs)
      have hotherwise := Stmt.filled_body fun s hs => iho s hs (ho s hs)
      exact List.forall_mem_append.2 ⟨hc.filled, List.forall_mem_append.2 ⟨hbody, hotherwise⟩⟩
  | while_ m condition body ih =>
    cases h with
    | while_ hc hb =>
      have hbody := Stmt.filled_body fun s hs => ih s hs (hb s hs)
      exact List.forall_mem_append.2 ⟨hc.filled, hbody⟩
  | for_ m control range body ih =>
    cases h with
    | for_ _ _ _ hrange hb =>
      have hparts := Expr.forall_mem_partsAll.2 fun e he => (hrange e he).filled
      have hbody := Stmt.filled_body fun s hs => ih s hs (hb s hs)
      exact List.forall_mem_append.2 ⟨hparts, hbody⟩
  | call m callee args =>
    cases h with
    | call _ htypes _ =>
      refine Expr.forall_mem_partsAll.2 fun e he => ?_
      obtain ⟨t, ht⟩ := exists_of_forall₂ htypes e he
      exact ht.filled
  | read m target =>
    cases h with
    | read ht _ => exact ht.filled
  | write m value =>
    cases h with
    | write hv _ => exact hv.filled
  | writeText m raw => exact fun e he => absurd he List.not_mem_nil
  | ret m value =>
    cases h with
    | leave => exact fun e he => absurd he List.not_mem_nil
    | ret hv _ => exact hv.filled

end Asl
