import Asl.Proofs.Lowering.Agreement
import Asl.Proofs.Session.Analysis

/-!
# Failures of lowering

Lowering may fail on a program that breaks the rules of types, but then it is for something in the
program, or for a node that has no type. It never asks for a scope. If every note of a body can be
read back, no type is missing either, whatever has been reported.
-/
namespace Asl

/-- An error about the tables of a session, not about the program. -/
def LowerError.isInternal : LowerError → Bool
  | .attribute _ | .scope _ => true
  | _ => false

/-- An error that something in the program accounts for, or a node that has no type. -/
def LowerError.Accounted (Λ : Lowering) (e : LowerError) : Prop :=
  e.isInternal = false ∨ ∃ n a, Λ.typeOf n = .error a ∧ e = .attribute a

namespace Lower

open Attempt (fail)

/-- A piece of lowering fails, if at all, for something in the program or for a missing type. -/
def Blameless (Λ : Lowering) {α : Type} (m : Lower α) : Prop :=
  ∀ c e c', m.run c = (.error e, c') → e.Accounted Λ

section

variable {α β : Type} {Λ : Lowering}

theorem Blameless.bind {m : Lower α} {f : α → Lower β} (hm : Blameless Λ m)
    (hf : ∀ a, Blameless Λ (f a)) : Blameless Λ (m >>= f) := by
  intro c e c' h
  rcases Attempt.run_bind_eq_error.1 h with hfirst | ⟨a, c₁, -, hrest⟩
  · exact hm c e c' hfirst
  · exact hf a c₁ e c' hrest

theorem blameless_pure (a : α) : Blameless Λ (pure a : Lower α) := by
  intro c e c' h
  cases h

theorem blameless_fail {e : LowerError} (h : e.isInternal = false) :
    Blameless Λ (fail e : Lower α) := by
  intro c e' c' hrun
  cases hrun
  exact Or.inl h

theorem blameless_freshTemp : Blameless Λ freshTemp := by
  intro c e c' h
  cases h

theorem blameless_freshBranch : Blameless Λ freshBranch := by
  intro c e c' h
  cases h

theorem blameless_freshLoop : Blameless Λ freshLoop := by
  intro c e c' h
  cases h

theorem Blameless.fresh {f : Operand → Lower β} (hf : ∀ t, Blameless Λ (f t)) :
    Blameless Λ (freshTemp >>= f) :=
  blameless_freshTemp.bind hf

theorem blameless_typeOf (n : NodeId) : Blameless Λ (typeOf Λ n) := by
  intro c e c' hrun
  rw [typeOf] at hrun
  cases hn : Λ.typeOf n with
  | ok t =>
    rw [hn] at hrun
    cases hrun
  | error a =>
    rw [hn] at hrun
    cases hrun
    exact Or.inr ⟨n, a, hn, rfl⟩

end

section

variable {Λ : Lowering}

theorem blameless_toFloat (v : Operand) (t : Ty) : Blameless Λ (toFloat v t) := by
  unfold toFloat
  split
  · exact .fresh fun _ => blameless_pure _
  · exact blameless_pure _

theorem blameless_coerce (v : Operand) (t expected : Ty) : Blameless Λ (coerce v t expected) := by
  unfold coerce
  split
  · exact blameless_toFloat v t
  · exact blameless_pure _

theorem blameless_materialize (v : Operand) : Blameless Λ (materialize v) := by
  unfold materialize
  split
  · exact blameless_pure _
  · exact .fresh fun _ => blameless_pure _

theorem blameless_arrayBase (array : Operand) : Blameless Λ (arrayBase Λ array) := by
  unfold arrayBase
  split
  · exact .fresh fun _ => blameless_pure _
  · exact blameless_pure _

theorem blameless_reference (array : Operand) : Blameless Λ (reference Λ array) := by
  unfold reference
  split
  · exact blameless_pure _
  · exact .fresh fun _ => blameless_pure _

theorem blameless_immediate (n : Int) : Blameless Λ (immediate n) :=
  .fresh fun _ => blameless_pure _

theorem blameless_operation (op : BinaryOp) (ns : Numbers) (dst a b : Operand) :
    Blameless Λ (operation op ns dst a b) := by
  cases op with
  | mod => exact .fresh fun _ => .fresh fun _ => blameless_pure _
  | _ => exact blameless_pure _

theorem blameless_calleeType (x : String) : Blameless Λ (calleeType Λ x) := by
  unfold calleeType
  split
  · exact blameless_fail rfl
  · split
    · exact blameless_pure _
    · exact blameless_fail rfl

theorem blameless_arguments (callee : String) (params : List Ty) {args : List Expr}
    (h : ∀ a ∈ args, Blameless Λ (expr Λ a)) :
    Blameless Λ (arguments Λ callee params args) := by
  induction args generalizing params with
  | nil => cases params <;> exact blameless_pure _
  | cons a args ih =>
    obtain ⟨ha, hargs⟩ := List.forall_mem_cons.1 h
    cases params with
    | nil => exact blameless_fail rfl
    | cons p ps =>
      refine (blameless_typeOf _).bind fun t => ha.bind fun r => ?_
      have hrest : ∀ q : Code × Operand, Blameless Λ (do
          let more ← arguments Λ callee ps args
          return r.1 ++ q.1 ++ .push (some q.2) :: more) :=
        fun q => (ih ps hargs).bind fun _ => blameless_pure _
      simp only
      split
      · exact (blameless_reference r.2).bind hrest
      · exact (blameless_coerce r.2 t p).bind hrest

theorem blameless_maxRest (t : Ty) (best : Operand) {args : List Expr}
    (h : ∀ a ∈ args, Blameless Λ (expr Λ a)) : Blameless Λ (maxRest Λ t best args) := by
  induction args with
  | nil => exact blameless_pure _
  | cons a args ih =>
    obtain ⟨ha, hargs⟩ := List.forall_mem_cons.1 h
    refine (blameless_typeOf _).bind fun u => ha.bind fun r => ?_
    refine (blameless_coerce _ u t).bind fun q => .fresh fun _ => ?_
    exact blameless_freshBranch.bind fun _ => (ih hargs).bind fun _ => blameless_pure _

theorem blameless_expr (e : Expr) : Blameless Λ (expr Λ e) := by
  induction e using Expr.ind with
  | literal m v => exact .fresh fun _ => blameless_pure _
  | name m x => exact blameless_pure _
  | element m base index ih =>
    refine ih.bind fun r => (blameless_arrayBase _).bind fun q => ?_
    exact .fresh fun _ => blameless_pure _
  | call m callee args ih =>
    refine (blameless_calleeType callee.name).bind fun f => ?_
    split
    · exact blameless_fail rfl
    · refine (blameless_arguments _ _ ih).bind fun _ => ?_
      exact .fresh fun _ => blameless_pure _
  | paren m inner ih => exact ih
  | unary m op operand ih =>
    refine ih.bind fun r => ?_
    cases op with
    | plus => exact blameless_pure _
    | not => exact .fresh fun _ => blameless_pure _
    | minus => exact (blameless_typeOf _).bind fun _ => .fresh fun _ => blameless_pure _
  | binary m op lhs rhs ihl ihr =>
    refine ihl.bind fun r => ihr.bind fun q => ?_
    refine (blameless_typeOf _).bind fun t => (blameless_typeOf _).bind fun u => ?_
    refine (blameless_coerce _ t _).bind fun _ => (blameless_coerce _ u _).bind fun _ => ?_
    exact .fresh fun _ => (blameless_operation op _ _ _ _).bind fun _ => blameless_pure _
  | max m args ih =>
    cases args with
    | nil => exact (blameless_typeOf _).bind fun _ => blameless_fail rfl
    | cons first rest =>
      obtain ⟨hfirst, hrest⟩ := List.forall_mem_cons.1 ih
      refine (blameless_typeOf _).bind fun t => ?_
      refine .fresh fun best => (blameless_typeOf _).bind fun u => ?_
      refine hfirst.bind fun _ => (blameless_coerce _ u t).bind fun _ => ?_
      exact (blameless_maxRest t best hrest).bind fun _ => blameless_pure _

theorem blameless_place (x : Target) : Blameless Λ (place Λ x) := by
  cases x with
  | name m x => exact blameless_pure _
  | element m base index =>
    refine (blameless_expr index).bind fun _ => ?_
    exact (blameless_arrayBase _).bind fun _ => blameless_pure _

theorem blameless_copyArray (dst : String) (size : Nat) (value : Expr) :
    Blameless Λ (copyArray Λ dst size value) := by
  have hrest : ∀ r : Code × Operand, Blameless Λ (do
      let a ← arrayBase Λ r.2
      let b ← arrayBase Λ (.name dst)
      let index ← freshTemp
      let elem ← freshTemp
      return r.1 ++ a.1 ++ b.1 ++ copyElements b.2 a.2 index elem size) := by
    intro r
    refine (blameless_arrayBase _).bind fun _ => (blameless_arrayBase _).bind fun _ => ?_
    exact .fresh fun _ => .fresh fun _ => blameless_pure _
  unfold copyArray
  split
  · exact (blameless_expr _).bind hrest
  · exact (blameless_expr _).bind hrest
  · exact (blameless_fail rfl).bind hrest

theorem blameless_assign (target : Target) (value : Expr) :
    Blameless Λ (assign Λ target value) := by
  refine (blameless_typeOf _).bind fun t => ?_
  split
  · cases target with
    | name m x => exact blameless_copyArray x.name _ value
    | element m base index => exact blameless_fail rfl
  · refine (blameless_typeOf _).bind fun u => (blameless_place target).bind fun _ => ?_
    exact (blameless_expr value).bind fun _ => (blameless_coerce _ u t).bind fun _ =>
      blameless_pure _

theorem blameless_bounds (es : List Expr) : Blameless Λ (bounds Λ es) := by
  induction es with
  | nil => exact blameless_pure _
  | cons e es ih =>
    refine (blameless_expr e).bind fun _ => (blameless_materialize _).bind fun _ => ?_
    exact ih.bind fun _ => blameless_pure _

theorem blameless_loopBounds (vs : List Operand) : Blameless Λ (loopBounds vs) := by
  rcases vs with _ | ⟨a, _ | ⟨b, _ | ⟨c, rest⟩⟩⟩
  · exact blameless_pure _
  · exact (blameless_immediate 0).bind fun _ => (blameless_immediate 1).bind fun _ =>
      blameless_pure _
  · exact (blameless_immediate 1).bind fun _ => blameless_pure _
  · exact blameless_pure _

theorem blameless_direction (step : Operand) (written : Option Expr) :
    Blameless Λ (direction step written) := by
  have htest : Blameless Λ (direction.test step) :=
    (blameless_immediate 0).bind fun _ => .fresh fun _ => blameless_pure _
  unfold direction
  split
  · split
    · exact blameless_pure _
    · split
      · exact blameless_pure _
      · exact htest
  · exact htest

theorem blameless_stmts_of {ss : List Stmt} (h : ∀ s ∈ ss, Blameless Λ (stmt Λ s)) :
    Blameless Λ (stmts Λ ss) := by
  induction ss with
  | nil => exact blameless_pure _
  | cons s ss ih =>
    obtain ⟨hs, hss⟩ := List.forall_mem_cons.1 h
    exact hs.bind fun _ => (ih hss).bind fun _ => blameless_pure _

theorem blameless_stmt (s : Stmt) : Blameless Λ (stmt Λ s) := by
  induction s using Stmt.ind with
  | assign m target value => exact blameless_assign target value
  | ifThen m condition body ih =>
    refine (blameless_expr condition).bind fun _ => blameless_freshBranch.bind fun _ => ?_
    exact (blameless_stmts_of ih).bind fun _ => blameless_pure _
  | ifElse m condition body otherwise ihb iho =>
    refine (blameless_expr condition).bind fun _ => blameless_freshBranch.bind fun _ => ?_
    refine (blameless_stmts_of ihb).bind fun _ => ?_
    exact (blameless_stmts_of iho).bind fun _ => blameless_pure _
  | while_ m condition body ih =>
    refine blameless_freshLoop.bind fun _ => (blameless_expr condition).bind fun _ => ?_
    exact (blameless_stmts_of ih).bind fun _ => blameless_pure _
  | for_ m control range body ih =>
    refine (blameless_bounds range).bind fun r => (blameless_loopBounds r.2).bind fun q => ?_
    cases q with
    | none => exact blameless_pure _
    | some q =>
      refine (blameless_direction _ _).bind fun _ => blameless_freshLoop.bind fun _ => ?_
      refine .fresh fun _ => ?_
      exact (blameless_stmts_of ih).bind fun _ => blameless_pure _
  | call m callee args =>
    refine (blameless_calleeType callee.name).bind fun f => ?_
    exact (blameless_arguments _ _ fun a _ => blameless_expr a).bind fun _ => blameless_pure _
  | read m target =>
    refine (blameless_typeOf _).bind fun t => (blameless_place target).bind fun hres => ?_
    obtain ⟨before, p⟩ := hres
    cases p with
    | scalar x => exact blameless_pure _
    | element base index => exact .fresh fun _ => blameless_pure _
  | write m value =>
    refine (blameless_typeOf _).bind fun t => ?_
    exact (blameless_expr value).bind fun _ => blameless_pure _
  | writeText m raw => exact .fresh fun _ => blameless_pure _
  | ret m value =>
    cases value with
    | none => exact blameless_pure _
    | some value =>
      refine (blameless_typeOf _).bind fun t => ?_
      refine (blameless_expr value).bind fun _ => (blameless_coerce _ _ _).bind fun _ => ?_
      exact blameless_pure _

theorem blameless_locals (ds : List Declaration) : Blameless Λ (locals Λ ds) := by
  induction ds with
  | nil => exact blameless_pure _
  | cons d ds ih =>
    exact (blameless_typeOf _).bind fun _ => ih.bind fun _ => blameless_pure _

theorem blameless_function (t : Ty) (f : Function) : Blameless Λ (function Λ t f) :=
  (blameless_locals f.declarations).bind fun _ =>
    (blameless_stmts_of fun s _ => blameless_stmt s).bind fun _ => blameless_pure _

theorem accounted_of_subroutine {t : Ty} {f : Function} {e : LowerError}
    (h : subroutine Λ t f = .error e) : e.Accounted Λ :=
  blameless_function t f ⟨0, 0, 0⟩ e _ (Prod.ext h rfl)

theorem subroutine_ne_scope (Λ : Lowering) (t : Ty) (f : Function) (e : ScopeError) :
    subroutine Λ t f ≠ .error (.scope e) := by
  intro h
  rcases accounted_of_subroutine h with h | ⟨n, a, -, h⟩ <;> cases h

end

end Lower

theorem mapM_eq_error {ε α β : Type} {f : α → Except ε β} {e : ε} {as : List α}
    (h : as.mapM f = .error e) : ∃ a ∈ as, f a = .error e := by
  induction as with
  | nil => cases h
  | cons a as ih =>
    rw [List.mapM_cons] at h
    cases ha : f a with
    | error e' =>
      rw [ha] at h
      cases h
      exact ⟨a, List.mem_cons_self, ha⟩
    | ok b =>
      rw [ha] at h
      cases has : as.mapM f with
      | error e' =>
        rw [has] at h
        cases h
        obtain ⟨a', hmem, ha'⟩ := ih has
        exact ⟨a', List.mem_cons_of_mem _ hmem, ha'⟩
      | ok bs =>
        rw [has] at h
        cases h

theorem Program.Analyzed.blameless {p : Program} {s : Session} (hs : p.Analyzed s)
    {e : LowerError} (he : p.lowered s = .error e) : e.isInternal = false := by
  rw [Program.lowered] at he
  cases hmap : p.functions.mapM fun f => Lower.subroutine (p.lowering s f) f.type f with
  | ok subs =>
    rw [hmap] at he
    cases he
  | error e' =>
    rw [hmap] at he
    cases he
    obtain ⟨f, hf, hfail⟩ := mapM_eq_error hmap
    -- The other nodes do not matter, so they may as well have a type.
    let Λ : Lowering := { p.lowering s f with
      typeOf := fun n => .ok ((s.typeOf n).toOption.getD .error) }
    have hagree : ∀ ns : List NodeId, (∀ n ∈ ns, ∃ t, s.typeOf n = .ok t) →
        (p.lowering s f).AgreesOn Λ ns := by
      intro ns hns
      refine ⟨rfl, rfl, fun n hn => ?_⟩
      obtain ⟨t, ht⟩ := hns n hn
      simp only [Λ, Program.lowering, ht]
      rfl
    have hdeclared : ∀ n ∈ f.declarations.map (·.type.mark.id), ∃ t, s.typeOf n = .ok t := by
      intro n hn
      obtain ⟨d, hd, rfl⟩ := List.mem_map.1 hn
      exact ⟨_, hs.typeOf_declaration hf hd⟩
    have hnoted : ∀ n ∈ (p.report f).nodes, ∃ t, s.typeOf n = .ok t := by
      intro n hn
      obtain ⟨note, hnote, rfl⟩ := List.mem_map.1 hn
      exact ⟨_, hs.note f hf note hnote⟩
    rw [← Lower.subroutine_congr (hagree _ hdeclared) (hagree _ hnoted)] at hfail
    rcases Lower.accounted_of_subroutine hfail with h | ⟨n, a, h, -⟩
    · exact h
    · cases h

end Asl
