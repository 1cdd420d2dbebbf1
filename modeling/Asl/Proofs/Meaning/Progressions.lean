import Asl.Proofs.Meaning.Tree
import Asl.Proofs.Tree.Nodes
import Mathlib.Data.List.Forall2

/-!
# Arithmetic progressions

Over exact integers the bounds of a loop are three integers, and the loop counts through an
arithmetic progression. What the rounds do is a matter of the body alone, as long as the body leaves
the control variable as it was.
-/
namespace Asl

open Act (perform)

variable {D : Domain}

/-- An interpretation in which every integer is a value, and in which constants, sums, signs and
comparisons of integers are exact. -/
structure Interpretation.Exact (I : Interpretation D) (int : Int → D.Value) : Prop where
  constant : ∀ n, I.constant (.int n) = int n
  add : ∀ m n, I.binary (.add .whole) (int m) (int n) = some (int (m + n))
  negate : ∀ n, I.unary (.negate .whole) (int n) = some (int (-n))
  less : ∀ m n, ∃ v, I.binary (.less .whole) (int m) (int n) = some v ∧
    I.holds v = decide (m < n)

/-- Integers, without floats and without anything outside of the scalars of a function. -/
def Interpretation.integers : Interpretation ⟨Int, Unit, Unit⟩ where
  constant
    | .int n => n
    | _ => 0
  binary
    | .add .whole, a, b => some (a + b)
    | .sub .whole, a, b => some (a - b)
    | .mul .whole, a, b => some (a * b)
    | .div .whole, a, b => if b = 0 then none else some (a.tdiv b)
    | .equal .whole, a, b => some (if a = b then 1 else 0)
    | .less .whole, a, b => some (if a < b then 1 else 0)
    | .lessEqual .whole, a, b => some (if a ≤ b then 1 else 0)
    | .and, a, b => some (if a ≠ 0 ∧ b ≠ 0 then 1 else 0)
    | .or, a, b => some (if a ≠ 0 ∨ b ≠ 0 then 1 else 0)
    | _, _, _ => none
  unary
    | .negate .whole, a => some (-a)
    | .not, a => some (if a = 0 then 1 else 0)
    | _, _ => none
  holds a := a ≠ 0
  owned _ := 0
  load _ _ _ := none
  store _ _ _ _ := none
  read _ _ := none
  call _ _ _ := none

theorem Interpretation.integers_exact : integers.Exact id where
  constant _ := rfl
  add _ _ := rfl
  negate _ := rfl
  less m n := by
    refine ⟨if m < n then 1 else 0, rfl, ?_⟩
    by_cases h : m < n
    · rw [if_pos h, decide_eq_true h]
      rfl
    · rw [if_neg h, decide_eq_false h]
      rfl

structure Progression where
  start : Int
  stop : Int
  step : Int
deriving DecidableEq, Repr

namespace Progression

/-- The start is zero and the step is one unless they are given. -/
def ofBounds : List Int → Option Progression
  | [] => none
  | [stop] => some ⟨0, stop, 1⟩
  | [start, stop] => some ⟨start, stop, 1⟩
  | start :: stop :: step :: _ => some ⟨start, stop, step⟩

def term (p : Progression) (k : Nat) : Int := p.start + k * p.step

/-- Whether a loop goes on with an integer: upwards it stops at its bound or above, and otherwise at
its bound or below. -/
def GoesOn (p : Progression) (i : Int) : Prop := if 0 < p.step then i < p.stop else p.stop < i

instance (p : Progression) (i : Int) : Decidable (p.GoesOn i) :=
  inferInstanceAs (Decidable (if 0 < p.step then i < p.stop else p.stop < i))

theorem term_zero (p : Progression) : p.term 0 = p.start := by simp [term]

theorem term_succ (p : Progression) (k : Nat) : p.term (k + 1) = p.term k + p.step := by
  rw [term, term, Int.natCast_succ, Int.add_mul, Int.one_mul, Int.add_assoc]

end Progression

section

variable {I : Interpretation D} {int : Int → D.Value} {s : State D}

theorem Interpretation.run_binaryAct {op : BinaryInstr} {a b v : D.Value}
    (h : I.binary op a b = some v) : (I.binaryAct op a b).run s = (.ok v, s) := by
  simp only [binaryAct, perform, Attempt.run, Effect.calculate, h, Option.map_some]

theorem Interpretation.run_unaryAct {op : UnaryInstr} {a v : D.Value}
    (h : I.unary op a = some v) : (I.unaryAct op a).run s = (.ok v, s) := by
  simp only [unaryAct, perform, Attempt.run, Effect.calculate, h, Option.map_some]

namespace Interpretation.Exact

theorem injective (hI : I.Exact int) {m n : Int} (h : int m = int n) : m = n := by
  have hnot : ∀ {a b : Int}, int a = int b → ¬ a < b := by
    intro a b hab hlt
    obtain ⟨v, hv, hholds⟩ := hI.less a b
    obtain ⟨w, hw, hirreflexive⟩ := hI.less b b
    rw [hab, hw] at hv
    cases hv
    rw [hholds, decide_eq_true hlt, decide_eq_false (Int.lt_irrefl b)] at hirreflexive
    cases hirreflexive
  exact Int.le_antisymm (Int.not_lt.1 (hnot h.symm)) (Int.not_lt.1 (hnot h))

theorem range (hI : I.Exact int) (vs : List Int) :
    I.range (vs.map int) =
      (Progression.ofBounds vs).map fun p => (int p.start, int p.stop, int p.step) := by
  rcases vs with _ | ⟨_, _ | ⟨_, _ | ⟨_, _⟩⟩⟩ <;>
    simp [Interpretation.range, Progression.ofBounds, hI.constant]

theorem run_isPositive (hI : I.Exact int) (k : Int) :
    (I.isPositive (int k)).run s = (.ok (decide (0 < k)), s) := by
  obtain ⟨v, hv, hholds⟩ := hI.less 0 k
  rw [Interpretation.isPositive, hI.constant, map_eq_pure_bind, Attempt.run_bind,
    Interpretation.run_binaryAct hv, ← hholds]
  rfl

theorem run_test (hI : I.Exact int) (p : Progression) (i : Int) :
    ∃ v, (if decide (0 < p.step) = true then I.binaryAct (.less .whole) (int i) (int p.stop)
      else I.binaryAct (.less .whole) (int p.stop) (int i)).run s = (.ok v, s) ∧
        I.holds v = decide (p.GoesOn i) := by
  by_cases hup : 0 < p.step
  · obtain ⟨v, hv, hholds⟩ := hI.less i p.stop
    refine ⟨v, ?_, ?_⟩
    · rw [if_pos (decide_eq_true hup), Interpretation.run_binaryAct hv]
    · simp only [hholds, Progression.GoesOn, if_pos hup]
  · obtain ⟨v, hv, hholds⟩ := hI.less p.stop i
    refine ⟨v, ?_, ?_⟩
    · rw [if_neg (by simpa using hup), Interpretation.run_binaryAct hv]
    · simp only [hholds, Progression.GoesOn, if_neg hup]

end Interpretation.Exact

theorem Context.type_judgeUnary_int (m : Mark) {op : UnaryOp} (hop : op ≠ .not) {j : Judgement}
    (hj : j.type = .int) : (judgeUnary m op j).type = .int := by
  obtain ⟨t, b, r⟩ := j
  cases hj
  cases op with
  | not => exact absurd rfl hop
  | _ => rfl

theorem Expr.type_judge_of_numeral (Γ : Context) {e : Expr} {k : Int}
    (h : e.numeral? = some k) : (e.judge Γ).type = .int := by
  induction e using Expr.ind generalizing k with
  | literal m v =>
    cases v with
    | int n => rfl
    | _ => cases h
  | paren m inner ih => exact ih h
  | unary m op operand ih =>
    cases op with
    | plus =>
      rw [Expr.judge]
      exact Context.type_judgeUnary_int m (by rintro ⟨⟩) (ih h)
    | minus =>
      obtain ⟨n, hn, -⟩ := Option.bind_eq_some_iff.1 h
      rw [Expr.judge]
      exact Context.type_judgeUnary_int m (by rintro ⟨⟩) (ih hn)
    | not => cases h
  | _ => cases h

theorem Interpretation.Exact.run_eval (hI : I.Exact int) (Γ : Context) {e : Expr} {k : Int}
    (h : e.numeral? = some k) : (e.eval I Γ).run s = (.ok (int k), s) := by
  induction e using Expr.ind generalizing k with
  | literal m v =>
    cases v with
    | int n =>
      cases h
      rw [Expr.eval, Interpretation.literal, hI.constant]
      rfl
    | _ => cases h
  | paren m inner ih =>
    rw [Expr.eval]
    exact ih h
  | unary m op operand ih =>
    cases op with
    | plus =>
      rw [Expr.eval, Attempt.run_bind, ih h]
      rfl
    | minus =>
      have htype := Expr.type_judge_of_numeral Γ h
      obtain ⟨n, hn, hk⟩ := Option.bind_eq_some_iff.1 h
      split at hk
      · cases hk
      · cases hk
        rw [Expr.eval, htype, Attempt.run_bind, ih hn]
        exact Interpretation.run_unaryAct (hI.negate n)
    | not => cases h
  | _ => cases h

theorem Interpretation.Exact.run_mapM_eval (hI : I.Exact int) (Γ : Context) {es : List Expr}
    {vs : List Int} (h : es.map Expr.numeral? = vs.map some) (s : State D) :
    (es.mapM (Expr.eval I Γ)).run s = (.ok (vs.map int), s) := by
  induction es generalizing vs with
  | nil =>
    rw [List.map_eq_nil_iff.1 h.symm]
    rfl
  | cons e es ih =>
    cases vs with
    | nil => cases h
    | cons v vs =>
      obtain ⟨he, hes⟩ := List.cons.inj h
      rw [List.mapM_cons, Attempt.run_bind, hI.run_eval Γ he]
      simp only
      rw [Attempt.run_bind, ih hes]
      rfl

theorem Attempt.forall₂_of_run_mapM {ε σ α β : Type} {f : α → Attempt ε σ β} {as : List α}
    {bs : List β} {s t : σ} (h : (as.mapM f).run s = (.ok bs, t)) :
    List.Forall₂ (fun a b => ∃ u w, (f a).run u = (.ok b, w)) as bs := by
  induction as generalizing bs s with
  | nil =>
    cases h
    exact .nil
  | cons a as ih =>
    rw [List.mapM_cons] at h
    obtain ⟨b, u, hb, h⟩ := Attempt.run_bind_eq_ok.1 h
    obtain ⟨bs', w, hbs, h⟩ := Attempt.run_bind_eq_ok.1 h
    cases h
    exact .cons ⟨s, u, hb⟩ (ih hbs)

theorem Interpretation.Exact.step_eq (hI : I.Exact int) {Γ : Context} {range : List Expr}
    {vs : List Int} {t : State D}
    (hvs : (range.mapM (Expr.eval I Γ)).run s = (.ok (vs.map int), t)) {p : Progression}
    (hp : Progression.ofBounds vs = some p) {k : Int}
    (hk : range[2]?.elim (some 1) Expr.numeral? = some k) : p.step = k := by
  have hall := List.forall₂_map_right_iff.1 (Attempt.forall₂_of_run_mapM hvs)
  rcases hall with _ | @⟨e₁, a, _, _, -, _ | @⟨e₂, b, _, _, -, _ | @⟨e, c, rest, _, he, _⟩⟩⟩
  · cases hp
  · cases hp
    exact Option.some.inj hk
  · cases hp
    exact Option.some.inj hk
  · cases hp
    obtain ⟨u, w, hrun⟩ := he
    have hconstant : e.numeral? = some k := hk
    rw [hI.run_eval Γ hconstant] at hrun
    exact hI.injective (Except.ok.inj (Prod.mk.inj hrun).1).symm

theorem Interpretation.Exact.run_countsUp (hI : I.Exact int) {k : Int} {written : Option Expr}
    (hk : ∀ n, written.elim (some 1) Expr.numeral? = some n → k = n) :
    (I.countsUp (int k) written).run s = (.ok (decide (0 < k)), s) := by
  rw [Interpretation.countsUp]
  cases written with
  | none =>
    rw [hk 1 rfl]
    rfl
  | some e =>
    change ∀ n, e.numeral? = some n → k = n at hk
    rw [Option.map_some]
    cases hnumeral : e.numeral? with
    | none => exact hI.run_isPositive k
    | some n =>
      rw [← hk n hnumeral]
      simp only
      split
      · exact hI.run_isPositive k
      · rfl

/-- The state in which a number of rounds of a loop have passed, and the control variable has been
set for the next one: the loop went on for each of them, and each body came to its end and left the
control variable as it was. -/
inductive Rounds (I : Interpretation D) (Γ : Context) (int : Int → D.Value) (x : String)
    (body : List Stmt) (p : Progression) (s : State D) : Nat → State D → Prop
  | zero : Rounds I Γ int x body p s 0 { s with frame := Function.update s.frame x (int p.start) }
  | succ {k n : Nat} {u w : State D} : Rounds I Γ int x body p s k u → p.GoesOn (p.term k) →
      (Stmt.execAll I Γ n body).run u = (.ok .normal, w) → w.frame x = u.frame x →
        Rounds I Γ int x body p s (k + 1)
          { w with frame := Function.update w.frame x (int (p.term (k + 1))) }

theorem Rounds.control {Γ : Context} {x : String} {body : List Stmt} {p : Progression} {k : Nat}
    {u : State D} (h : Rounds I Γ int x body p s k u) : u.frame x = int (p.term k) := by
  cases h with
  | zero => exact (Function.update_self _ _ _).trans (congrArg int p.term_zero.symm)
  | succ => exact Function.update_self _ _ _

end

end Asl
