import Asl.Proofs.Sample.Values
import Asl.Proofs.Tree.Writable
import Asl.Proofs.Typing.Filled

/-!
# Drawn expressions

A vocabulary describes a context if its names mean there what it says. Then every expression that
is drawn has the type that it is drawn for, can be written down, and nests within the depth that it
is drawn with. There is one lemma for each form of an expression, which says what its parts have to
be, one for each type, and then the induction on the depth.
-/
namespace Asl

/-- At most `n` operators, calls, indices or parentheses stand around each other. -/
inductive Expr.Within : Nat → Expr → Prop
  | literal {n : Nat} {m : Mark} {v : Literal} : Within n (.literal m v)
  | name {n : Nat} {m : Mark} {x : Ident} : Within n (.name m x)
  | element {n : Nat} {m : Mark} {base : Ident} {index : Expr} :
      Within n index → Within (n + 1) (.element m base index)
  | call {n : Nat} {m : Mark} {callee : Ident} {args : List Expr} :
      (∀ e ∈ args, Within n e) → Within (n + 1) (.call m callee args)
  | paren {n : Nat} {m : Mark} {inner : Expr} : Within n inner → Within (n + 1) (.paren m inner)
  | unary {n : Nat} {m : Mark} {op : UnaryOp} {operand : Expr} :
      Within n operand → Within (n + 1) (.unary m op operand)
  | binary {n : Nat} {m : Mark} {op : BinaryOp} {lhs rhs : Expr} :
      Within n lhs → Within n rhs → Within (n + 1) (.binary m op lhs rhs)
  | max {n : Nat} {m : Mark} {args : List Expr} :
      (∀ e ∈ args, Within n e) → Within (n + 1) (.max m args)

namespace Expr.Within

variable {e : Expr} {n k : Nat}

theorem succ (h : e.Within n) : e.Within (n + 1) := by
  induction h with
  | literal => exact .literal
  | name => exact .name
  | element _ ih => exact .element ih
  | call _ ih => exact .call ih
  | paren _ ih => exact .paren ih
  | unary _ ih => exact .unary ih
  | binary _ _ ihl ihr => exact .binary ihl ihr
  | max _ ih => exact .max ih

theorem mono (h : e.Within n) (hle : n ≤ k) : e.Within k := by
  induction hle with
  | refl => exact h
  | step _ ih => exact ih.succ

end Expr.Within

namespace Sample

open Draw

/-- A tree that has a type, can be written down and nests within a depth. -/
structure Drawn (Γ : Context) (n : Nat) (e : Expr) (t : Ty) : Prop where
  typed : e.HasType Γ t
  written : ∀ k ∈ e.kinds, k.Written
  within : e.Within n

structure Named (Γ : Context) (x : String) (role : Role) (t : Ty) : Prop where
  free : FreeName x
  meaning : Γ.meaning x = some (role, t)

variable {Γ : Context} {n : Nat} {role : Role}

theorem Drawn.mono {k : Nat} {e : Expr} {t : Ty} (h : Drawn Γ n e t) (hle : n ≤ k) :
    Drawn Γ k e t :=
  ⟨h.typed, h.written, h.within.mono hle⟩

theorem within_of_drawn {es : List Expr} {ts : List Ty} (h : List.Forall₂ (Drawn Γ n) es ts) :
    ∀ e ∈ es, e.Within n := by
  intro e he
  obtain ⟨t, ht⟩ := exists_of_forall₂ h e he
  exact ht.within

theorem written_arguments {es : List Expr} {ts : List Ty} (h : List.Forall₂ (Drawn Γ n) es ts) :
    ∀ k ∈ inParens (commaSeparated (es.map Expr.kinds)), k.Written := by
  refine written_inParens (written_commaSeparated fun e he => ?_)
  obtain ⟨t, ht⟩ := exists_of_forall₂ h e he
  exact ht.written

theorem drawn_name {x : String} {t : Ty} (h : Named Γ x role t) : Drawn Γ n (nameExpr x) t where
  typed := .name h.meaning
  written := List.forall_mem_singleton.2 h.free
  within := .name

theorem drawn_literal {v : Literal} (h : v.token.Written) :
    Drawn Γ n (.literal .blank v) v.type where
  typed := .literal .blank v
  written := List.forall_mem_singleton.2 h
  within := .literal

theorem drawn_element {a : String} {size : Nat} {t : Ty} {index : Expr}
    (ha : Named Γ a role (.array size t)) (h : Drawn Γ n index .int) :
    Drawn Γ (n + 1) (.element .blank (ident a) index) t where
  typed := .element ha.meaning h.typed
  written := List.forall_mem_cons.2 ⟨ha.free, written_inBrackets h.written⟩
  within := .element h.within

theorem drawn_call {f : String} {args : List Expr} {ts params : List Ty} {t : Ty}
    (hf : Named Γ f role (.function params t)) (h : List.Forall₂ (Drawn Γ n) args ts)
    (hfits : List.Forall₂ Fits ts params) (ht : t ≠ .void) :
    Drawn Γ (n + 1) (.call .blank (ident f) args) t where
  typed := .call hf.meaning (h.imp fun _ _ h => h.typed) hfits ht
  written := by
    rw [Expr.kinds, Expr.kindsAll_eq_map]
    exact List.forall_mem_cons.2 ⟨hf.free, written_arguments h⟩
  within := .call (within_of_drawn h)

theorem drawn_paren {e : Expr} {t : Ty} (h : Drawn Γ n e t) :
    Drawn Γ (n + 1) (.paren .blank e) t where
  typed := .paren h.typed
  written := written_inParens h.written
  within := .paren h.within

theorem drawn_unary {op : UnaryOp} {e : Expr} {t u : Ty} (h : Drawn Γ n e t)
    (hop : op.HasType t u) : Drawn Γ (n + 1) (.unary .blank op e) u where
  typed := .unary h.typed hop
  written := List.forall_mem_cons.2 ⟨op.written_token, h.written⟩
  within := .unary h.within

theorem drawn_binary {op : BinaryOp} {lhs rhs : Expr} {t u r : Ty} (hl : Drawn Γ n lhs t)
    (hr : Drawn Γ n rhs u) (hop : op.HasType t u r) : Drawn Γ (n + 1) (binary op lhs rhs) r where
  typed := .binary hl.typed hr.typed hop
  written := List.forall_mem_append.2
    ⟨hl.written, List.forall_mem_cons.2 ⟨op.written_token, hr.written⟩⟩
  within := .binary hl.within hr.within

theorem drawn_max {args : List Expr} {ts : List Ty} {t : Ty} (hcount : 2 ≤ args.length)
    (h : List.Forall₂ (Drawn Γ n) args ts) (hmax : HasMaximum ts t) :
    Drawn Γ (n + 1) (.max .blank args) t where
  typed := .max hcount (h.imp fun _ _ h => h.typed) hmax
  written := by
    rw [Expr.kinds, Expr.kindsAll_eq_map]
    exact List.forall_mem_cons.2 ⟨trivial, written_arguments h⟩
  within := .max (within_of_drawn h)

/-- The names of a vocabulary mean in a context what the vocabulary says. -/
structure Vocabulary.Describes (V : Vocabulary) (Γ : Context) : Prop where
  names : ∀ t, ∀ x ∈ V.names t, ∃ role, role ≠ .function ∧ Named Γ x role (.ofBase t)
  control : V.names .int ≠ []
  array : ∀ a, V.array = some a → ∃ role, Named Γ a role (.array arraySize .int)
  scale : V.calls = true → Named Γ "scale" .function (.function [.int, .float] .float)
  fill : V.calls = true →
    Named Γ "fill" .function (.function [.array arraySize .int, .int] .void)
  filled : V.calls = true → ∃ role, Named Γ "a0" role (.array arraySize .int)

variable {V : Vocabulary}

def Found (Γ : Context) (t : Ty) (x : Option String) : Prop :=
  ∀ y, x = some y → ∃ role, role ≠ .function ∧ Named Γ y role t

theorem always_name (hV : V.Describes Γ) (t : BaseType) :
    Always (oneOf? (V.names t)) (Found Γ (.ofBase t)) := by
  refine (always_oneOf? _).mono fun x hx y hy => ?_
  subst hy
  rcases hx with ⟨hnone, -⟩ | ⟨z, hz, hsome⟩
  · cases hnone
  · cases hsome
    exact hV.names t y hz

theorem always_leaf (hV : V.Describes Γ) (n : Nat) (t : BaseType) :
    Always (leaf V t) fun e => Drawn Γ n e (.ofBase t) := by
  have hname : Always (name? V t) (Found Γ (.ofBase t)) := by
    refine always_then fun b => ?_
    cases b with
    | true => exact always_name hV t
    | false => exact always_pure (by rintro y ⟨⟩)
  refine always_bind hname fun x hx => ?_
  cases x with
  | none =>
    refine always_bind (always_literal t) fun v hv => always_pure ?_
    rw [← hv.1]
    exact drawn_literal hv.2
  | some y =>
    obtain ⟨role, -, hy⟩ := hx y rfl
    exact always_pure (drawn_name hy)

theorem always_numericType : Always numericType fun t => Numeric (.ofBase t) := by
  refine always_then fun b => always_pure ?_
  cases b with
  | true => exact .int
  | false => exact .float

theorem always_comparedTypes (op : BinaryOp)
    (hop : op ∈ [.equal, .notEqual, .less, .lessEqual, .greater, .greaterEqual]) :
    Always comparedTypes fun ts => op.HasType (.ofBase ts.1) (.ofBase ts.2) .bool := by
  refine always_then fun k => ?_
  split
  · refine always_pure ?_
    by_cases hequality : op ∈ [.equal, .notEqual]
    · exact .equality hequality .char
    · refine .ordering ?_
      simp only [List.mem_cons, List.not_mem_nil, or_false] at hop hequality ⊢
      tauto
  · refine always_bind always_numericType fun t ht => ?_
    exact always_bind always_numericType fun u hu => always_pure (.numbers hop ht hu)

section

variable {part : BaseType → Draw Expr}

theorem always_pair (hpart : ∀ t, Always (part t) fun e => Drawn Γ n e (.ofBase t))
    (t u : BaseType) {make : Expr → Expr → Expr} {r : Ty} {k : Nat}
    (hmake : ∀ lhs rhs, Drawn Γ n lhs (.ofBase t) → Drawn Γ n rhs (.ofBase u) →
      Drawn Γ k (make lhs rhs) r) :
    Always (do let lhs ← part t; let rhs ← part u; return make lhs rhs) fun e => Drawn Γ k e r :=
  always_bind (hpart t) fun lhs hl => always_bind (hpart u) fun rhs hr =>
    always_pure (hmake lhs rhs hl hr)

theorem always_composite_int (hV : V.Describes Γ)
    (hpart : ∀ t, Always (part t) fun e => Drawn Γ n e (.ofBase t)) :
    Always (composite V part .int) fun e => Drawn Γ (n + 1) e .int := by
  refine always_then fun k => ?_
  split
  · refine always_bind (always_oneOf fun op hop => hop) fun op hop => ?_
    refine always_pair hpart .int .int fun lhs rhs hl hr => drawn_binary hl hr ?_
    simp only [List.mem_cons, List.not_mem_nil, or_false] at hop
    rcases hop with rfl | rfl | rfl | rfl | rfl
    · exact .arithmetic (by decide) .whole
    · exact .arithmetic (by decide) .whole
    · exact .arithmetic (by decide) .whole
    · exact .arithmetic (by decide) .whole
    · exact .mod
  · exact always_bind (hpart .int) fun e he => always_pure (drawn_unary he (.minus .int))
  · exact always_bind (hpart .int) fun e he => always_pure (drawn_paren he)
  · refine always_pair hpart .int .int fun x y hx hy => ?_
    exact drawn_max (Nat.le_refl 2) (.cons hx (.cons hy .nil)) (.whole (by simp [Ty.ofBase]))
  · split
    · rename_i a ha
      obtain ⟨role, hrole⟩ := hV.array a ha
      exact always_bind (hpart .int) fun e he => always_pure (drawn_element hrole he)
    · exact always_leaf hV (n + 1) .int

theorem always_composite_float (hV : V.Describes Γ)
    (hpart : ∀ t, Always (part t) fun e => Drawn Γ n e (.ofBase t)) :
    Always (composite V part .float) fun e => Drawn Γ (n + 1) e .float := by
  refine always_then fun k => ?_
  split
  · refine always_bind (always_oneOf fun op hop => hop) fun op hop => ?_
    refine always_bind (always_oneOf fun ts hts => hts) fun ts hts => ?_
    refine always_pair hpart ts.1 ts.2 fun lhs rhs hl hr => drawn_binary hl hr ?_
    have hcombine : Combine (.ofBase ts.1) (.ofBase ts.2) .float := by
      simp only [List.mem_cons, List.not_mem_nil, or_false] at hts
      rcases hts with rfl | rfl | rfl
      · exact .left .int
      · exact .right .int
      · exact .left .float
    refine .arithmetic ?_ hcombine
    simp only [List.mem_cons, List.not_mem_nil, or_false] at hop ⊢
    tauto
  · exact always_bind (hpart .float) fun e he => always_pure (drawn_unary he (.minus .float))
  · refine always_bind (hpart .int) fun x hx => always_bind (hpart .float) fun y hy => ?_
    refine always_bind (hpart .int) fun z hz => always_pure ?_
    refine drawn_max (Nat.le_succ 2) (.cons hx (.cons hy (.cons hz .nil))) ?_
    refine .float ?_ (by simp [Ty.ofBase])
    simp [Ty.ofBase, Numeric.int, Numeric.float]
  · split
    · rename_i hcalls
      refine always_bind always_numericType fun t ht => ?_
      refine always_pair hpart .int t fun x y hx hy => ?_
      exact drawn_call (hV.scale hcalls) (.cons hx (.cons hy .nil))
        (.cons (.same .int) (.cons ht.fits_float .nil)) (by decide)
    · exact always_leaf hV (n + 1) .float

theorem always_composite_bool (hpart : ∀ t, Always (part t) fun e => Drawn Γ n e (.ofBase t)) :
    Always (composite V part .bool) fun e => Drawn Γ (n + 1) e .bool := by
  refine always_then fun k => ?_
  split
  · refine always_bind (always_oneOf fun op hop => hop) fun op hop => ?_
    refine always_bind (always_comparedTypes op hop) fun ts hts => ?_
    exact always_pair hpart ts.1 ts.2 fun lhs rhs hl hr => drawn_binary hl hr hts
  · refine always_then fun b => ?_
    refine always_pair hpart .bool .bool fun lhs rhs hl hr => drawn_binary hl hr (.logic ?_)
    cases b <;> decide
  · exact always_bind (hpart .bool) fun e he => always_pure (drawn_unary he .not)
  · exact always_bind (hpart .bool) fun e he => always_pure (drawn_paren he)

theorem always_composite (hV : V.Describes Γ)
    (hpart : ∀ t, Always (part t) fun e => Drawn Γ n e (.ofBase t)) (t : BaseType) :
    Always (composite V part t) fun e => Drawn Γ (n + 1) e (.ofBase t) := by
  cases t with
  | int => exact always_composite_int hV hpart
  | float => exact always_composite_float hV hpart
  | bool => exact always_composite_bool hpart
  | char =>
    refine always_then fun b => ?_
    split
    · refine always_pair hpart .char .char fun x y hx hy => ?_
      exact drawn_max (Nat.le_refl 2) (.cons hx (.cons hy .nil)) (.char (by simp [Ty.ofBase]))
    · exact always_leaf hV (n + 1) .char

end

theorem always_expr (hV : V.Describes Γ) (depth : Nat) (t : BaseType) :
    Always (expr V depth t) fun e => Drawn Γ depth e (.ofBase t) := by
  induction depth generalizing t with
  | zero => exact always_leaf hV 0 t
  | succ depth ih =>
    refine always_then fun k => ?_
    split
    · exact always_leaf hV (depth + 1) t
    · exact always_composite hV ih t

end Sample

end Asl
