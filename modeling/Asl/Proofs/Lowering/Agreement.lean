import Asl.Proofs.Lowering.Wrapped
import Asl.Proofs.Tree.Nodes

/-!
# What lowering looks at

Lowering looks at the types of no other nodes than those that the checker notes types for. Two
sessions that give the names of a function the same meanings and agree on these nodes therefore
lower it alike: to the same subroutine, or with the same error. Nothing is assumed of the types
themselves, so this holds of programs that break the rules, too.
-/
open scoped List

namespace Asl

/-- Two ways of lowering that differ at most in the types of nodes outside of a list. -/
structure Lowering.AgreesOn (Λ Λ' : Lowering) (ns : List NodeId) : Prop where
  meaning : Λ'.meaning = Λ.meaning
  result : Λ'.result = Λ.result
  typeOf : ∀ n ∈ ns, Λ'.typeOf n = Λ.typeOf n

variable {Λ Λ' : Lowering}

namespace Lowering.AgreesOn

variable {ns ms : List NodeId}

theorem mono (h : Λ.AgreesOn Λ' ns) (hsub : ms ⊆ ns) : Λ.AgreesOn Λ' ms :=
  ⟨h.meaning, h.result, fun n hn => h.typeOf n (hsub hn)⟩

theorem left (h : Λ.AgreesOn Λ' (ns ++ ms)) : Λ.AgreesOn Λ' ns :=
  h.mono (List.subset_append_left ns ms)

theorem right (h : Λ.AgreesOn Λ' (ns ++ ms)) : Λ.AgreesOn Λ' ms :=
  h.mono (List.subset_append_right ns ms)

theorem tail {n : NodeId} (h : Λ.AgreesOn Λ' (n :: ns)) : Λ.AgreesOn Λ' ns :=
  h.mono (List.subset_cons_self n ns)

theorem sameCalls (h : Λ.AgreesOn Λ' ns) (names : List String) : Λ.SameCalls Λ' names :=
  .of_meaning h.meaning names

theorem lowered_typeOf (h : Λ.AgreesOn Λ' ns) {n : NodeId} (hn : n ∈ ns) :
    Lower.typeOf Λ' n = Lower.typeOf Λ n := by
  rw [Lower.typeOf, Lower.typeOf, h.typeOf n hn]

theorem typeOf_expr {e : Expr} (h : Λ.AgreesOn Λ' e.ids) :
    Lower.typeOf Λ' e.mark.id = Lower.typeOf Λ e.mark.id := h.lowered_typeOf e.mark_mem_ids

theorem typeOf_target {x : Target} (h : Λ.AgreesOn Λ' x.ids) :
    Lower.typeOf Λ' x.mark.id = Lower.typeOf Λ x.mark.id := h.lowered_typeOf x.mark_mem_ids

end Lowering.AgreesOn

open Lowering

namespace Lower

theorem maxRest_congr {type : Ty} {best : Operand} {es : List Expr}
    (ih : ∀ e ∈ es, Λ.AgreesOn Λ' e.ids → expr Λ' e = expr Λ e)
    (h : Λ.AgreesOn Λ' (Expr.idsAll es)) : maxRest Λ' type best es = maxRest Λ type best es := by
  induction es with
  | nil => rfl
  | cons e es ihes =>
    obtain ⟨ihe, ihall⟩ := List.forall_mem_cons.1 ih
    rw [maxRest, maxRest, h.left.typeOf_expr, ihe h.left, ihes ihall h.right]

theorem arguments_congr {callee : String} {ps : List Ty} {es : List Expr}
    (ih : ∀ e ∈ es, Λ.AgreesOn Λ' e.ids → expr Λ' e = expr Λ e)
    (h : Λ.AgreesOn Λ' (Expr.idsAll es)) :
    arguments Λ' callee ps es = arguments Λ callee ps es := by
  induction es generalizing ps with
  | nil => cases ps <;> rfl
  | cons e es ihes =>
    obtain ⟨ihe, ihall⟩ := List.forall_mem_cons.1 ih
    cases ps with
    | nil => rfl
    | cons p ps =>
      rw [arguments, arguments, h.left.typeOf_expr, ihe h.left, (h.sameCalls []).reference,
        ihes ihall h.right]

theorem expr_congr (e : Expr) (h : Λ.AgreesOn Λ' e.ids) : expr Λ' e = expr Λ e := by
  induction e using Expr.ind with
  | literal m v => rw [expr, expr]
  | name m x => rw [expr, expr]
  | element m base index ih =>
    rw [expr, expr, ih h.left.tail, (h.sameCalls []).arrayBase]
  | call m callee args ih =>
    have hpushes (ps : List Ty) :
        arguments Λ' callee.name ps args = arguments Λ callee.name ps args :=
      arguments_congr ih h.left.tail
    simp only [expr, (h.sameCalls [callee.name]).calleeType, hpushes]
  | paren m inner ih => rw [expr, expr, ih h.left]
  | unary m op operand ih =>
    have htype := h.typeOf_expr
    rw [Expr.mark] at htype
    rw [expr, expr, ih h.left, htype]
  | binary m op lhs rhs ihl ihr =>
    rw [expr, expr, ihl h.left.left, ihr h.left.right, h.left.left.typeOf_expr,
      h.left.right.typeOf_expr]
  | max m args ih =>
    have htype := h.typeOf_expr
    rw [Expr.mark] at htype
    cases args with
    | nil => rw [expr, expr, htype]
    | cons e es =>
      obtain ⟨ihe, ihes⟩ := List.forall_mem_cons.1 ih
      have hargs : Λ.AgreesOn Λ' (e.ids ++ Expr.idsAll es) := h.left
      have hrest (t : Ty) (best : Operand) : maxRest Λ' t best es = maxRest Λ t best es :=
        maxRest_congr ihes hargs.right
      simp only [expr, htype, ihe hargs.left, hargs.left.typeOf_expr, hrest]

theorem place_congr {x : Target} (h : Λ.AgreesOn Λ' x.ids) : place Λ' x = place Λ x := by
  cases x with
  | name m x => rfl
  | element m base index =>
    rw [place, place, expr_congr index h.left.tail, (h.sameCalls []).arrayBase]

theorem copyArray_congr {dst : String} {size : Nat} {e : Expr} (h : Λ.AgreesOn Λ' e.ids) :
    copyArray Λ' dst size e = copyArray Λ dst size e := by
  cases e <;> simp only [copyArray, expr_congr _ h, (h.sameCalls []).arrayBase]

theorem assign_congr {x : Target} {e : Expr} (hx : Λ.AgreesOn Λ' x.ids)
    (he : Λ.AgreesOn Λ' e.ids) : assign Λ' x e = assign Λ x e := by
  have hcopy (dst : String) (size : Nat) : copyArray Λ' dst size e = copyArray Λ dst size e :=
    copyArray_congr he
  rw [assign, assign, hx.typeOf_target, he.typeOf_expr, place_congr hx, expr_congr e he]
  cases x with
  | name m x => simp only [hcopy]
  | element m base index => rfl

theorem bounds_congr {es : List Expr} (h : Λ.AgreesOn Λ' (Expr.idsAll es)) :
    bounds Λ' es = bounds Λ es := by
  induction es with
  | nil => rfl
  | cons e es ih => rw [bounds, bounds, expr_congr e h.left, ih h.right]

variable {Γ : Context}

theorem stmts_congr {ss : List Stmt}
    (ih : ∀ s ∈ ss, Λ.AgreesOn Λ' (s.judge Γ).nodes → stmt Λ' s = stmt Λ s)
    (h : Λ.AgreesOn Λ' (Stmt.judgeAll Γ ss).nodes) : stmts Λ' ss = stmts Λ ss := by
  induction ss with
  | nil => rfl
  | cons s ss ihss =>
    obtain ⟨ihs, ihall⟩ := List.forall_mem_cons.1 ih
    rw [Stmt.judgeAll, Report.nodes_append] at h
    rw [stmts, stmts, ihs h.left, ihss ihall h.right]

theorem stmt_congr (s : Stmt) (h : Λ.AgreesOn Λ' (s.judge Γ).nodes) :
    stmt Λ' s = stmt Λ s := by
  induction s using Stmt.ind with
  | assign m target value =>
    simp only [Stmt.judge, Report.nodes_append, Target.nodes_judge, Expr.nodes_judge] at h
    rw [stmt, stmt, assign_congr h.left.left.left h.left.left.right]
  | ifThen m condition body ih =>
    simp only [Stmt.judge, Report.nodes_append, Expr.nodes_judgeCondition] at h
    rw [stmt, stmt, expr_congr condition h.left, stmts_congr ih h.right]
  | ifElse m condition body otherwise ihb iho =>
    simp only [Stmt.judge, Report.nodes_append, Expr.nodes_judgeCondition] at h
    rw [stmt, stmt, expr_congr condition h.left.left, stmts_congr ihb h.left.right,
      stmts_congr iho h.right]
  | while_ m condition body ih =>
    simp only [Stmt.judge, Report.nodes_append, Expr.nodes_judgeCondition] at h
    rw [stmt, stmt, expr_congr condition h.left, stmts_congr ih h.right]
  | for_ m control range body ih =>
    simp only [Stmt.judge, Report.nodes_append, Expr.nodes_judgeRange] at h
    simp only [stmt, bounds_congr h.left.right, stmts_congr ih h.right]
  | call m callee args =>
    simp only [Stmt.judge, Report.nodes_append] at h
    have hargs := h.left.right
    rw [Expr.nodes_judgeAll fun e _ => Expr.nodes_judge Γ e] at hargs
    have hpushes (ps : List Ty) :
        arguments Λ' callee.name ps args = arguments Λ callee.name ps args :=
      arguments_congr (fun e _ => expr_congr e) hargs
    simp only [stmt, (h.sameCalls [callee.name]).calleeType, hpushes]
  | read m target =>
    simp only [Stmt.judge, Report.nodes_append, Target.nodes_judge] at h
    rw [stmt, stmt, h.left.left.typeOf_target, place_congr h.left.left]
  | write m value =>
    simp only [Stmt.judge, Report.nodes_append, Expr.nodes_judge] at h
    rw [stmt, stmt, h.left.typeOf_expr, expr_congr value h.left]
  | writeText m raw => rw [stmt, stmt]
  | ret m value =>
    cases value with
    | none => rw [stmt, stmt]
    | some value =>
      simp only [Stmt.judge, Report.nodes_append, Expr.nodes_judge] at h
      rw [stmt, stmt, h.left.typeOf_expr, expr_congr value h.left, h.result]

theorem locals_congr {ds : List Declaration} (h : Λ.AgreesOn Λ' (ds.map (·.type.mark.id))) :
    locals Λ' ds = locals Λ ds := by
  induction ds with
  | nil => rfl
  | cons d ds ih =>
    rw [List.map_cons] at h
    rw [locals, locals, h.lowered_typeOf List.mem_cons_self, ih h.tail]

/-- The outcome of lowering a function depends on the types of its declarations and of the nodes
that judging its body notes. -/
theorem subroutine_congr {type : Ty} {f : Function}
    (hd : Λ.AgreesOn Λ' (f.declarations.map (·.type.mark.id)))
    (hb : Λ.AgreesOn Λ' (Stmt.judgeAll Γ f.body).nodes) :
    subroutine Λ' type f = subroutine Λ type f := by
  have hcode := stmts_congr (fun s _ => stmt_congr s) hb
  rw [subroutine, subroutine, function, function, locals_congr hd, hcode]

end Lower

end Asl
