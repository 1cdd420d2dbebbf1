import Asl.Proofs.Typing.Rules
import Mathlib.Tactic.Tauto

/-!
# The checker and the rules

Judging an expression reports nothing exactly when the expression has a type, and gives that type;
judging a statement reports nothing exactly when the statement is in order. The error type stands
for a part about which something has been reported already, so a part without a report does not
have it, and no rule is silent by mistake.
-/
namespace Asl

open Report

section

variable {b : Bool} {m : Mark} {f : Fault} {r r' : Report}

theorem diagnostics_faultIf : (faultIf b m f).diagnostics = [] ↔ b = false := by
  cases b
  · exact iff_of_true rfl rfl
  · exact iff_of_false (List.cons_ne_nil _ _) Bool.noConfusion

theorem diagnostics_append_eq_nil :
    (r ++ r').diagnostics = [] ↔ r.diagnostics = [] ∧ r'.diagnostics = [] :=
  List.append_eq_nil_iff

theorem diagnostics_fault_ne_nil : (fault m f).diagnostics ≠ [] := List.cons_ne_nil _ _

end

theorem Ty.violates_eq_false_iff {t : Ty} {admits : Ty → Bool} (ht : t ≠ .error) :
    t.violates admits = false ↔ admits t = true := by
  simp [violates, ht]

theorem Ty.isNumeric_iff {t : Ty} : t.isNumeric = true ↔ Numeric t := by
  constructor
  · intro h
    cases t with
    | int => exact .int
    | float => exact .float
    | _ => cases h
  · rintro (_ | _) <;> rfl

theorem Ty.isPrimitive_iff {t : Ty} : t.isPrimitive = true ↔ Primitive t := by
  constructor
  · intro h
    cases t with
    | int => exact .int
    | float => exact .float
    | bool => exact .bool
    | char => exact .char
    | _ => cases h
  · rintro (_ | _ | _ | _) <;> rfl

theorem Ty.accepts_iff {t u : Ty} : t.accepts u = true ↔ Fits u t := by
  simp only [accepts, Bool.or_eq_true, Bool.and_eq_true, decide_eq_true_eq]
  constructor
  · rintro (rfl | ⟨rfl, rfl⟩)
    · exact .same t
    · exact .widen
  · rintro (_ | _)
    · exact Or.inl rfl
    · exact Or.inr ⟨rfl, rfl⟩

theorem Ty.ofUnary?_iff {op : UnaryOp} {t u : Ty} (ht : t ≠ .error) :
    Ty.ofUnary? op t = some u ↔ op.HasType t u := by
  have hsign : (if t.violates isNumeric then none else some t) = some u ↔ Numeric t ∧ t = u := by
    have hv : t.violates isNumeric = false ↔ t.isNumeric = true := violates_eq_false_iff ht
    rw [← Ty.isNumeric_iff, ← hv]
    cases t.violates isNumeric <;> simp
  cases op with
  | not =>
    have hnot : Ty.ofUnary? .not t = some u ↔ t = .bool ∧ u = .bool := by
      simp only [ofUnary?, violates, ht, ne_eq, not_false_eq_true, decide_true, Bool.true_and]
      by_cases hb : t = .bool
      · simp [hb, eq_comm]
      · simp [hb]
    rw [hnot]
    constructor
    · rintro ⟨rfl, rfl⟩
      exact .not
    · rintro ⟨_⟩
      exact ⟨rfl, rfl⟩
  | plus =>
    refine hsign.trans ⟨?_, ?_⟩
    · rintro ⟨h, rfl⟩
      exact .plus h
    · rintro ⟨_⟩
      exact ⟨‹_›, rfl⟩
  | minus =>
    refine hsign.trans ⟨?_, ?_⟩
    · rintro ⟨h, rfl⟩
      exact .minus h
    · rintro ⟨_⟩
      exact ⟨‹_›, rfl⟩

theorem combine_iff {t u r : Ty} :
    Combine t u r ↔ Numeric t ∧ Numeric u ∧ r = Ty.join [t, u] := by
  constructor
  · rintro (_ | h | h)
    · exact ⟨.int, .int, rfl⟩
    · exact ⟨.float, h, rfl⟩
    · cases h <;> exact ⟨by constructor, .float, rfl⟩
  · rintro ⟨ht, hu, rfl⟩
    cases ht with
    | int =>
      cases hu with
      | int => exact .whole
      | float => exact .right .int
    | float => exact .left hu

/-- What an operator gives for operands that it admits. -/
def BinaryOp.resultOf (op : BinaryOp) (t u : Ty) : Ty :=
  if op.isArithmetic then .join [t, u] else .bool

theorem Ty.comparable_iff {op : BinaryOp} {t u : Ty} : Ty.comparable op t u = true ↔
    (Numeric t ∧ Numeric u) ∨ (op.isEquality = true ∧ t = u ∧ Primitive t) ∨
      (op.isEquality = false ∧ t = .char ∧ u = .char) := by
  rw [comparable, Bool.or_eq_true, Bool.and_eq_true, isNumeric_iff, isNumeric_iff]
  cases op.isEquality <;> simp [isPrimitive_iff]

theorem BinaryOp.hasType_iff {op : BinaryOp} {t u r : Ty} :
    op.HasType t u r ↔ Ty.admits op t u = true ∧ r = op.resultOf t u := by
  constructor
  · intro h
    cases h with
    | arithmetic hop hc =>
      obtain ⟨ht, hu, rfl⟩ := combine_iff.1 hc
      rw [← Ty.isNumeric_iff] at ht hu
      simp only [List.mem_cons, List.not_mem_nil, or_false] at hop
      rcases hop with rfl | rfl | rfl | rfl <;>
        exact ⟨by simp [Ty.admits, isArithmetic, ht, hu], rfl⟩
    | mod => exact ⟨rfl, rfl⟩
    | numbers hop ht hu =>
      have hc : Ty.comparable op t u = true := Ty.comparable_iff.2 (Or.inl ⟨ht, hu⟩)
      simp only [List.mem_cons, List.not_mem_nil, or_false] at hop
      rcases hop with rfl | rfl | rfl | rfl | rfl | rfl <;> exact ⟨hc, rfl⟩
    | equality hop ht =>
      simp only [List.mem_cons, List.not_mem_nil, or_false] at hop
      rcases hop with rfl | rfl <;>
        exact ⟨Ty.comparable_iff.2 (Or.inr (Or.inl ⟨rfl, rfl, ht⟩)), rfl⟩
    | ordering hop =>
      simp only [List.mem_cons, List.not_mem_nil, or_false] at hop
      rcases hop with rfl | rfl | rfl | rfl <;> exact ⟨rfl, rfl⟩
    | logic hop =>
      simp only [List.mem_cons, List.not_mem_nil, or_false] at hop
      rcases hop with rfl | rfl <;> exact ⟨rfl, rfl⟩
  · rintro ⟨h, rfl⟩
    have harith : ∀ o ∈ [BinaryOp.mul, .div, .add, .sub],
        t.isNumeric = true ∧ u.isNumeric = true → o.HasType t u (.join [t, u]) := by
      rintro o ho ⟨ht, hu⟩
      exact .arithmetic ho
        (combine_iff.2 ⟨Ty.isNumeric_iff.1 ht, Ty.isNumeric_iff.1 hu, rfl⟩)
    have hequal : ∀ o ∈ [BinaryOp.equal, .notEqual], o.isEquality = true →
        Ty.comparable o t u = true → o.HasType t u .bool := by
      intro o ho he hc
      rcases Ty.comparable_iff.1 hc with ⟨ht, hu⟩ | ⟨-, rfl, ht⟩ | ⟨hne, -⟩
      · exact .numbers (by simp at ho ⊢; tauto) ht hu
      · exact .equality ho ht
      · rw [he] at hne
        cases hne
    have horder : ∀ o ∈ [BinaryOp.less, .lessEqual, .greater, .greaterEqual],
        o.isEquality = false → Ty.comparable o t u = true → o.HasType t u .bool := by
      intro o ho he hc
      rcases Ty.comparable_iff.1 hc with ⟨ht, hu⟩ | ⟨hne, -⟩ | ⟨-, rfl, rfl⟩
      · exact .numbers (by simp at ho ⊢; tauto) ht hu
      · rw [he] at hne
        cases hne
      · exact .ordering ho
    cases op with
    | mul => exact harith _ (by simp) (by simpa [Ty.admits, isArithmetic] using h)
    | div => exact harith _ (by simp) (by simpa [Ty.admits, isArithmetic] using h)
    | add => exact harith _ (by simp) (by simpa [Ty.admits, isArithmetic] using h)
    | sub => exact harith _ (by simp) (by simpa [Ty.admits, isArithmetic] using h)
    | mod =>
      obtain ⟨rfl, rfl⟩ : t = .int ∧ u = .int := by simpa [Ty.admits] using h
      exact .mod
    | equal => exact hequal _ (by simp) rfl h
    | notEqual => exact hequal _ (by simp) rfl h
    | less => exact horder _ (by simp) rfl h
    | lessEqual => exact horder _ (by simp) rfl h
    | greater => exact horder _ (by simp) rfl h
    | greaterEqual => exact horder _ (by simp) rfl h
    | and =>
      obtain ⟨rfl, rfl⟩ : t = .bool ∧ u = .bool := by
        simpa [Ty.admits, isArithmetic, isRelational] using h
      exact .logic (by simp)
    | or =>
      obtain ⟨rfl, rfl⟩ : t = .bool ∧ u = .bool := by
        simpa [Ty.admits, isArithmetic, isRelational] using h
      exact .logic (by simp)

theorem hasMaximum_join {ts : List Ty} (h : ∀ t ∈ ts, Numeric t) : HasMaximum ts (.join ts) := by
  by_cases hf : Ty.float ∈ ts
  · have hj : Ty.join ts = .float := by
      have hany : ts.any (· = .float) = true := List.any_eq_true.2 ⟨_, hf, by simp⟩
      rw [Ty.join, if_pos hany]
    rw [hj]
    exact .float h hf
  · have hj : Ty.join ts = .int := by
      have hany : ¬ ts.any (· = .float) = true := by
        intro h'
        obtain ⟨t, ht, he⟩ := List.any_eq_true.1 h'
        rw [of_decide_eq_true he] at ht
        exact hf ht
      rw [Ty.join, if_neg hany]
    rw [hj]
    refine .whole fun t ht => ?_
    rcases h t ht with _ | _
    · rfl
    · exact absurd ht hf

theorem hasMaximum_iff {ts : List Ty} (hne : ts ≠ []) {t : Ty} : HasMaximum ts t ↔
    (ts.all Ty.isNumeric = true ∧ t = .join ts) ∨
      (ts.all Ty.isNumeric = false ∧ ts.all (· = .char) = true ∧ t = .char) := by
  have hnumeric : ts.all Ty.isNumeric = true ↔ ∀ t ∈ ts, Numeric t := by
    simp only [List.all_eq_true, Ty.isNumeric_iff]
  have hchar : ts.all (· = .char) = true ↔ ∀ t ∈ ts, t = .char := by
    simp only [List.all_eq_true, decide_eq_true_eq]
  constructor
  · intro h
    cases h with
    | whole h =>
      have hn : ∀ t ∈ ts, Numeric t := by
        intro t ht
        rw [h t ht]
        exact .int
      have hj : Ty.join ts = .int := by
        have hany : ¬ ts.any (· = .float) = true := by
          intro h'
          obtain ⟨t, ht, he⟩ := List.any_eq_true.1 h'
          rw [h t ht] at he
          cases he
        rw [Ty.join, if_neg hany]
      exact Or.inl ⟨hnumeric.2 hn, hj.symm⟩
    | float h hf =>
      have hany : ts.any (· = .float) = true := List.any_eq_true.2 ⟨_, hf, by simp⟩
      refine Or.inl ⟨hnumeric.2 h, ?_⟩
      rw [Ty.join, if_pos hany]
    | char h =>
      refine Or.inr ⟨?_, hchar.2 h, rfl⟩
      rw [← Bool.not_eq_true, hnumeric]
      intro hn
      obtain ⟨t, ht⟩ := List.exists_mem_of_ne_nil ts hne
      have hnum := hn t ht
      rw [h t ht] at hnum
      cases hnum
  · rintro (⟨h, rfl⟩ | ⟨-, h, rfl⟩)
    · exact hasMaximum_join (hnumeric.1 h)
    · exact .char (hchar.1 h)

namespace Judgement

def Clean (j : Judgement) (t : Ty) : Prop := j.report.diagnostics = [] ∧ j.type = t

/-- A judgement has the error type only where something is reported. -/
def Honest (j : Judgement) : Prop := j.report.diagnostics = [] → j.type ≠ .error

theorem clean_of {m : Mark} {t u : Ty} {b : Bool} {parts : Report} :
    (Judgement.of m t b parts).Clean u ↔ parts.diagnostics = [] ∧ t = u := by
  simp only [Clean, Judgement.of, diagnostics_append_eq_nil]
  exact and_congr_left fun _ => and_iff_left rfl

end Judgement

open Judgement

namespace Context

variable {Γ : Context}

theorem clean_judgeName {x : Ident} {t : Ty} :
    (Γ.judgeName x).Clean t ↔ ∃ role, Γ.meaning x.name = some (role, t) := by
  unfold judgeName
  cases Γ.meaning x.name with
  | none =>
    refine iff_of_false (fun h => diagnostics_fault_ne_nil (clean_of.1 h).1) ?_
    rintro ⟨_, h⟩
    cases h
  | some m =>
    obtain ⟨role, u⟩ := m
    refine clean_of.trans ?_
    constructor
    · rintro ⟨-, rfl⟩
      exact ⟨role, rfl⟩
    · rintro ⟨_, h⟩
      cases h
      exact ⟨rfl, rfl⟩

theorem honest_judgeName (hΓ : Γ.Proper) (x : Ident) : (Γ.judgeName x).Honest := by
  intro h
  obtain ⟨role, hx⟩ := clean_judgeName.1 ⟨h, rfl⟩
  exact (hΓ _ _ _ hx).ne_error

theorem clean_judgeElement {m : Mark} {base : Ident} {array index : Judgement} {im : Mark}
    (ha : array.Honest) (hi : index.Honest) {t : Ty} :
    (judgeElement m base array index im).Clean t ↔
      (∃ n, array.Clean (.array n t)) ∧ index.Clean .int := by
  have hparts : ∀ a b, (array.report ++ index.report ++ faultIf a base.mark (.notArray base.name) ++
      faultIf b im .indexType).diagnostics = [] ↔
        array.report.diagnostics = [] ∧ index.report.diagnostics = [] ∧ a = false ∧ b = false := by
    intro a b
    simp only [diagnostics_append_eq_nil, diagnostics_faultIf, and_assoc]
  constructor
  · intro h
    simp only [judgeElement] at h
    split at h
    · rename_i hbad
      obtain ⟨hclean, -⟩ := clean_of.1 h
      obtain ⟨hra, hri, hna, hni⟩ := (hparts _ _).1 hclean
      have herror := ha hra
      simp [herror, hna, hni] at hbad
    · obtain ⟨hclean, ht⟩ := clean_of.1 h
      obtain ⟨hra, hri, hna, hni⟩ := (hparts _ _).1 hclean
      rw [Ty.violates_eq_false_iff (ha hra)] at hna
      rw [Ty.violates_eq_false_iff (hi hri), decide_eq_true_eq] at hni
      refine ⟨?_, hri, hni⟩
      cases harray : array.type with
      | array n u =>
        rw [harray] at ht
        cases ht
        exact ⟨n, hra, harray⟩
      | _ =>
        rw [harray] at hna
        cases hna
  · rintro ⟨⟨n, hra, hta⟩, hri, hti⟩
    simp only [judgeElement, hta, hti]
    exact clean_of.2 ⟨(hparts _ _).2 ⟨hra, hri, rfl, rfl⟩, rfl⟩

theorem diagnostics_argumentFaults (callee : String) (k : Nat) {args : List (Mark × Ty)}
    (params : List Ty) (hargs : ∀ a ∈ args, a.2 ≠ .error) :
    (argumentFaults callee k args params).diagnostics = [] ∧ params.length = args.length ↔
      List.Forall₂ Fits (args.map Prod.snd) params := by
  induction args generalizing k params with
  | nil =>
    cases params with
    | nil => exact iff_of_true ⟨rfl, rfl⟩ .nil
    | cons p ps => exact iff_of_false (fun h => absurd h.2 (by simp)) (by rintro ⟨⟩)
  | cons a args ih =>
    cases params with
    | nil => exact iff_of_false (fun h => absurd h.2 (by simp)) (by rintro ⟨⟩)
    | cons p ps =>
      obtain ⟨head, tail⟩ := List.forall_mem_cons.1 hargs
      have hrest := ih (k + 1) ps tail
      rw [argumentFaults, diagnostics_append_eq_nil, diagnostics_faultIf,
        Ty.violates_eq_false_iff head, Ty.accepts_iff, List.map_cons, List.forall₂_cons, ← hrest,
        List.length_cons, List.length_cons, Nat.add_right_cancel_iff, and_assoc]

theorem clean_judgeCall {callee : Ident} {asValue : Bool} {f : Ty} {args : List (Mark × Ty)}
    (hf : f ≠ .error) (hargs : ∀ a ∈ args, a.2 ≠ .error) {t : Ty} :
    (judgeCall callee asValue f args).2.diagnostics = [] ∧
        (judgeCall callee asValue f args).1 = t ↔
      ∃ params, f = .function params t ∧ List.Forall₂ Fits (args.map Prod.snd) params ∧
        (asValue = true → t ≠ .void) := by
  cases f with
  | error => exact absurd rfl hf
  | function params result =>
    have hfits := diagnostics_argumentFaults callee.name 1 params hargs
    have hcall : judgeCall callee asValue (.function params result) args =
        if asValue && decide (result = .void) then
          (.error, faultIf (params.length ≠ args.length) callee.mark
              (.argumentCount callee.name params.length args.length) ++
            argumentFaults callee.name 1 args params ++ fault callee.mark (.noValue callee.name))
        else (result, faultIf (params.length ≠ args.length) callee.mark
              (.argumentCount callee.name params.length args.length) ++
            argumentFaults callee.name 1 args params) := rfl
    rw [hcall]
    by_cases hvoid : asValue = true ∧ result = .void
    · obtain ⟨rfl, rfl⟩ := hvoid
      refine iff_of_false ?_ ?_
      · rintro ⟨h, -⟩
        simp only [decide_true, Bool.and_self, if_true, diagnostics_append_eq_nil] at h
        exact diagnostics_fault_ne_nil h.2
      · rintro ⟨_, h, -, hne⟩
        cases h
        exact hne rfl rfl
    · have hcond : ¬ (asValue && decide (result = .void)) = true := by
        simpa only [Bool.and_eq_true, decide_eq_true_eq] using hvoid
      rw [if_neg hcond, diagnostics_append_eq_nil, diagnostics_faultIf]
      constructor
      · rintro ⟨⟨hcount, hfaults⟩, rfl⟩
        have hlength : params.length = args.length := by simpa using hcount
        exact ⟨params, rfl, hfits.1 ⟨hfaults, hlength⟩, fun ha hr => hvoid ⟨ha, hr⟩⟩
      · rintro ⟨_, h, hforall, -⟩
        cases h
        obtain ⟨hfaults, hlength⟩ := hfits.2 hforall
        exact ⟨⟨by simp [hlength], hfaults⟩, rfl⟩
  | _ =>
    refine iff_of_false ?_ ?_
    · rintro ⟨h, -⟩
      exact diagnostics_fault_ne_nil h
    · rintro ⟨_, h, -⟩
      cases h

theorem clean_judgeUnary {m : Mark} {op : UnaryOp} {operand : Judgement} (hj : operand.Honest)
    {u : Ty} : (judgeUnary m op operand).Clean u ↔
      ∃ t, operand.Clean t ∧ op.HasType t u := by
  have hfault : ∀ {t : Ty} {b : Bool}, ¬ (Judgement.of m t b
      (operand.report ++ fault m (.operandTypes op.token.spelling))).Clean u := by
    intro t b h
    exact diagnostics_fault_ne_nil (diagnostics_append_eq_nil.1 (clean_of.1 h).1).2
  constructor
  · intro h
    simp only [judgeUnary] at h
    split at h
    · rename_i t _ hof
      obtain ⟨hclean, rfl⟩ := clean_of.1 h
      exact ⟨operand.type, ⟨hclean, rfl⟩, (Ty.ofUnary?_iff (hj hclean)).1 hof⟩
    · exact absurd h hfault
    · exact absurd h hfault
  · rintro ⟨t, ⟨hclean, rfl⟩, hop⟩
    simp only [judgeUnary, (Ty.ofUnary?_iff (hj hclean)).2 hop]
    exact clean_of.2 ⟨hclean, rfl⟩

theorem clean_judgeBinary {m : Mark} {op : BinaryOp} {lhs rhs : Judgement} (hl : lhs.Honest)
    (hr : rhs.Honest) {r : Ty} : (judgeBinary m op lhs rhs).Clean r ↔
      ∃ t u, lhs.Clean t ∧ rhs.Clean u ∧ op.HasType t u r := by
  have hparts : ∀ b, (lhs.report ++ rhs.report ++
      faultIf b m (.operandTypes op.token.spelling)).diagnostics = [] ↔
        lhs.report.diagnostics = [] ∧ rhs.report.diagnostics = [] ∧ b = false := by
    intro b
    simp only [diagnostics_append_eq_nil, diagnostics_faultIf, and_assoc]
  have hclean : ∀ {silent broken : Bool}, (lhs.type = .error || rhs.type = .error) = silent →
      (!silent && !Ty.admits op lhs.type rhs.type) = broken →
        ((lhs.report ++ rhs.report ++
          faultIf broken m (.operandTypes op.token.spelling)).diagnostics = [] ↔
        lhs.report.diagnostics = [] ∧ rhs.report.diagnostics = [] ∧ silent = false ∧
          Ty.admits op lhs.type rhs.type = true) := by
    rintro _ _ rfl rfl
    rw [hparts]
    refine and_congr_right fun hrl => and_congr_right fun hrr => ?_
    simp [hl hrl, hr hrr]
  simp only [BinaryOp.hasType_iff, BinaryOp.resultOf, judgeBinary]
  constructor
  · intro h
    split at h
    · rename_i harith
      obtain ⟨hd, rfl⟩ := clean_of.1 h
      obtain ⟨hrl, hrr, -, hadmits⟩ := (hclean rfl rfl).1 hd
      exact ⟨_, _, ⟨hrl, rfl⟩, ⟨hrr, rfl⟩, hadmits, by simp_all⟩
    · rename_i harith
      split at h
      · rename_i hbad
        obtain ⟨hd, -⟩ := clean_of.1 h
        obtain ⟨-, -, hsilent, hadmits⟩ := (hclean rfl rfl).1 hd
        simp [hsilent, hadmits] at hbad
      · obtain ⟨hd, rfl⟩ := clean_of.1 h
        obtain ⟨hrl, hrr, -, hadmits⟩ := (hclean rfl rfl).1 hd
        exact ⟨_, _, ⟨hrl, rfl⟩, ⟨hrr, rfl⟩, hadmits, by simp_all⟩
  · rintro ⟨t, u, ⟨hrl, rfl⟩, ⟨hrr, rfl⟩, hadmits, rfl⟩
    have hsilent : (decide (lhs.type = .error) || decide (rhs.type = .error)) = false := by
      simp [hl hrl, hr hrr]
    have hd := (hclean rfl rfl).2 ⟨hrl, hrr, hsilent, hadmits⟩
    cases harith : op.isArithmetic with
    | false => exact clean_of.2 ⟨hd, by simp⟩
    | true =>
      simp only [Bool.not_true, Bool.false_eq_true, if_false, if_true]
      rw [if_neg (by simp [hsilent, hadmits])]
      exact clean_of.2 ⟨hd, rfl⟩

theorem clean_judgeMax {m : Mark} {types : List Ty} {parts : Report}
    (hp : parts.diagnostics = [] → ∀ t ∈ types, t ≠ .error) {t : Ty} :
    (judgeMax m types parts).Clean t ↔
      parts.diagnostics = [] ∧ 2 ≤ types.length ∧ HasMaximum types t := by
  have hfault : ∀ {u : Ty} {f : Fault},
      ¬ (Judgement.of m u false (parts ++ fault m f)).Clean t := by
    intro u f h
    exact diagnostics_fault_ne_nil (diagnostics_append_eq_nil.1 (clean_of.1 h).1).2
  by_cases hcount : types.length < 2
  · refine iff_of_false ?_ ?_
    · rw [judgeMax, if_pos hcount]
      exact hfault
    · rintro ⟨-, h, -⟩
      omega
  · have hne : types ≠ [] := by
      rintro rfl
      exact hcount (by simp)
    rw [hasMaximum_iff hne, judgeMax, if_neg hcount]
    by_cases herror : types.any (· = .error) = true
    · have hbad : ¬ parts.diagnostics = [] := by
        intro hparts
        obtain ⟨u, hu, he⟩ := List.any_eq_true.1 herror
        exact hp hparts u hu (of_decide_eq_true he)
      rw [if_pos herror]
      exact iff_of_false (fun h => hbad (clean_of.1 h).1) (fun h => hbad h.1)
    · rw [if_neg herror]
      cases hn : types.all Ty.isNumeric with
      | true =>
        rw [if_pos rfl, clean_of]
        refine and_congr_right fun _ => ?_
        constructor
        · rintro rfl
          exact ⟨by omega, Or.inl ⟨rfl, rfl⟩⟩
        · rintro ⟨-, ⟨-, h⟩ | ⟨h, -⟩⟩
          · exact h.symm
          · cases h
      | false =>
        cases hc : types.all (· = .char) with
        | true =>
          rw [if_neg Bool.false_ne_true, if_pos rfl, clean_of]
          refine and_congr_right fun _ => ?_
          constructor
          · rintro rfl
            exact ⟨by omega, Or.inr ⟨rfl, rfl, rfl⟩⟩
          · rintro ⟨-, ⟨h, -⟩ | ⟨-, -, h⟩⟩
            · cases h
            · exact h.symm
        | false =>
          simp only [Bool.false_eq_true, if_false, false_and, and_false, or_false]
          exact iff_of_false hfault (fun h => h)

end Context

end Asl
