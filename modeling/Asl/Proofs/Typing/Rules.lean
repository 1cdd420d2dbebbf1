import Asl.Proofs.Tree.Declared
import Mathlib.Data.List.Forall2

/-!
# The rules of types as derivations

What it means for an expression to have a type, for a statement to be in order and for a program to
be well typed, without the error type and without a report: a rule either derives a type or there
is none. A name means what the context says. An integer fits where a float is expected; every other
type fits only itself.
-/
namespace Asl

inductive Numeric : Ty → Prop
  | int : Numeric .int
  | float : Numeric .float

inductive Primitive : Ty → Prop
  | int : Primitive .int
  | float : Primitive .float
  | bool : Primitive .bool
  | char : Primitive .char

/-- A value of a type may stand where a type is expected. -/
inductive Fits : Ty → Ty → Prop
  | same (t : Ty) : Fits t t
  | widen : Fits .int .float

inductive UnaryOp.HasType : UnaryOp → Ty → Ty → Prop
  | plus {t : Ty} : Numeric t → HasType .plus t t
  | minus {t : Ty} : Numeric t → HasType .minus t t
  | not : HasType .not .bool .bool

/-- The type of numbers that two numbers combine to. -/
inductive Combine : Ty → Ty → Ty → Prop
  | whole : Combine .int .int .int
  | left {u : Ty} : Numeric u → Combine .float u .float
  | right {t : Ty} : Numeric t → Combine t .float .float

inductive BinaryOp.HasType : BinaryOp → Ty → Ty → Ty → Prop
  | arithmetic {op : BinaryOp} {t u r : Ty} :
      op ∈ [.mul, .div, .add, .sub] → Combine t u r → HasType op t u r
  | mod : HasType .mod .int .int .int
  | numbers {op : BinaryOp} {t u : Ty} :
      op ∈ [.equal, .notEqual, .less, .lessEqual, .greater, .greaterEqual] →
        Numeric t → Numeric u → HasType op t u .bool
  | equality {op : BinaryOp} {t : Ty} :
      op ∈ [.equal, .notEqual] → Primitive t → HasType op t t .bool
  | ordering {op : BinaryOp} :
      op ∈ [.less, .lessEqual, .greater, .greaterEqual] → HasType op .char .char .bool
  | logic {op : BinaryOp} : op ∈ [.and, .or] → HasType op .bool .bool .bool

inductive HasMaximum : List Ty → Ty → Prop
  | whole {ts : List Ty} : (∀ t ∈ ts, t = .int) → HasMaximum ts .int
  | float {ts : List Ty} : (∀ t ∈ ts, Numeric t) → Ty.float ∈ ts → HasMaximum ts .float
  | char {ts : List Ty} : (∀ t ∈ ts, t = .char) → HasMaximum ts .char

inductive Expr.HasType (Γ : Context) : Expr → Ty → Prop
  | literal (m : Mark) (v : Literal) : HasType Γ (.literal m v) v.type
  | name {m : Mark} {x : Ident} {role : Role} {t : Ty} :
      Γ.meaning x.name = some (role, t) → HasType Γ (.name m x) t
  | element {m : Mark} {base : Ident} {index : Expr} {role : Role} {n : Nat} {t : Ty} :
      Γ.meaning base.name = some (role, .array n t) → HasType Γ index .int →
        HasType Γ (.element m base index) t
  | call {m : Mark} {callee : Ident} {args : List Expr} {role : Role} {params ts : List Ty}
      {t : Ty} : Γ.meaning callee.name = some (role, .function params t) →
        List.Forall₂ (HasType Γ) args ts → List.Forall₂ Fits ts params → t ≠ .void →
          HasType Γ (.call m callee args) t
  | paren {m : Mark} {inner : Expr} {t : Ty} :
      HasType Γ inner t → HasType Γ (.paren m inner) t
  | unary {m : Mark} {op : UnaryOp} {operand : Expr} {t u : Ty} :
      HasType Γ operand t → op.HasType t u → HasType Γ (.unary m op operand) u
  | binary {m : Mark} {op : BinaryOp} {lhs rhs : Expr} {t u r : Ty} :
      HasType Γ lhs t → HasType Γ rhs u → op.HasType t u r → HasType Γ (.binary m op lhs rhs) r
  | max {m : Mark} {args : List Expr} {ts : List Ty} {t : Ty} :
      2 ≤ args.length → List.Forall₂ (HasType Γ) args ts → HasMaximum ts t →
        HasType Γ (.max m args) t

inductive Target.HasType (Γ : Context) : Target → Ty → Prop
  | name {m : Mark} {x : Ident} {role : Role} {t : Ty} :
      Γ.meaning x.name = some (role, t) → role ≠ .function → HasType Γ (.name m x) t
  | element {m : Mark} {base : Ident} {index : Expr} {role : Role} {n : Nat} {t : Ty} :
      Γ.meaning base.name = some (role, .array n t) → index.HasType Γ .int →
        HasType Γ (.element m base index) t

inductive Stmt.Ok (Γ : Context) : Stmt → Prop
  | assign {m : Mark} {target : Target} {value : Expr} {t u : Ty} :
      target.HasType Γ t → value.HasType Γ u → Fits u t → Ok Γ (.assign m target value)
  | ifThen {m : Mark} {condition : Expr} {body : List Stmt} :
      condition.HasType Γ .bool → (∀ s ∈ body, Ok Γ s) → Ok Γ (.ifThen m condition body)
  | ifElse {m : Mark} {condition : Expr} {body otherwise : List Stmt} :
      condition.HasType Γ .bool → (∀ s ∈ body, Ok Γ s) → (∀ s ∈ otherwise, Ok Γ s) →
        Ok Γ (.ifElse m condition body otherwise)
  | while_ {m : Mark} {condition : Expr} {body : List Stmt} :
      condition.HasType Γ .bool → (∀ s ∈ body, Ok Γ s) → Ok Γ (.while m condition body)
  | for_ {m : Mark} {control : Ident} {range : List Expr} {body : List Stmt} {role : Role} :
      Γ.meaning control.name = some (role, .int) → 1 ≤ range.length → range.length ≤ 3 →
        (∀ e ∈ range, e.HasType Γ .int) → (∀ s ∈ body, Ok Γ s) →
          Ok Γ (.for m control range body)
  | call {m : Mark} {callee : Ident} {args : List Expr} {role : Role} {params ts : List Ty}
      {t : Ty} : Γ.meaning callee.name = some (role, .function params t) →
        List.Forall₂ (Expr.HasType Γ) args ts → List.Forall₂ Fits ts params →
          Ok Γ (.call m callee args)
  | read {m : Mark} {target : Target} {t : Ty} :
      target.HasType Γ t → Primitive t → Ok Γ (.read m target)
  | write {m : Mark} {value : Expr} {t : Ty} :
      value.HasType Γ t → Primitive t → Ok Γ (.write m value)
  | writeText (m : Mark) (raw : String) : Ok Γ (.writeText m raw)
  | leave {m : Mark} : Γ.result = .void → Ok Γ (.ret m none)
  | ret {m : Mark} {value : Expr} {t : Ty} :
      value.HasType Γ t → Fits t Γ.result → Ok Γ (.ret m (some value))

structure Program.WellTyped (p : Program) : Prop where
  inside : ∀ f ∈ p.functions, (f.entries.map Entry.name).Nodup
  functions : (p.functions.map (·.name.name)).Nodup
  main : ∃ f ∈ p.functions, f.name.name = "main" ∧ f.params = [] ∧ f.result = none
  body : ∀ f ∈ p.functions, ∀ s ∈ f.body, s.Ok (p.context f)

inductive Ty.OfValue : Ty → Prop
  | spec (s : TypeSpec) : OfValue (.ofSpec s)

inductive Ty.Declared : Ty → Prop
  | value {t : Ty} : t.OfValue → Declared t
  | function {params : List Ty} {result : Ty} : (∀ t ∈ params, t.OfValue) →
      result = .void ∨ result.OfValue → Declared (.function params result)

/-- The names of a context mean things that can be declared. -/
def Context.Proper (Γ : Context) : Prop :=
  ∀ x role t, Γ.meaning x = some (role, t) → t.Declared

theorem Ty.OfValue.ne_void {t : Ty} (h : t.OfValue) : t ≠ .void := by
  rcases h with ⟨(b | ⟨n, b⟩)⟩
  · cases b <;> rintro ⟨⟩
  · rintro ⟨⟩

theorem Ty.Declared.ne_error {t : Ty} (h : t.Declared) : t ≠ .error := by
  rcases h with ⟨⟨(b | ⟨n, b⟩)⟩⟩ | _
  · cases b <;> rintro ⟨⟩
  · rintro ⟨⟩
  · rintro ⟨⟩

theorem Ty.Declared.ne_void {t : Ty} (h : t.Declared) : t ≠ .void := by
  cases h with
  | value h => exact h.ne_void
  | function => rintro ⟨⟩

theorem Primitive.ofBase (b : BaseType) : Primitive (.ofBase b) := by
  cases b <;> constructor

theorem Primitive.ofValue {t : Ty} (h : Primitive t) : t.OfValue := by
  cases h with
  | int => exact .spec (.base .int)
  | float => exact .spec (.base .float)
  | bool => exact .spec (.base .bool)
  | char => exact .spec (.base .char)

theorem Numeric.primitive {t : Ty} (h : Numeric t) : Primitive t := by
  cases h <;> constructor

theorem Numeric.fits_float {t : Ty} (h : Numeric t) : Fits t .float := by
  cases h with
  | int => exact .widen
  | float => exact .same .float

theorem Primitive.declared {t : Ty} (h : Primitive t) : t.Declared := .value h.ofValue

theorem Literal.primitive_type (v : Literal) : Primitive v.type := by
  cases v <;> constructor

theorem Ty.Declared.elem {n : Nat} {t : Ty} (h : (Ty.array n t).Declared) : Primitive t := by
  generalize hu : Ty.array n t = u at h
  rcases h with ⟨⟨(b | ⟨k, b⟩)⟩⟩ | _
  · cases b <;> cases hu
  · cases hu
    exact Primitive.ofBase b
  · cases hu

theorem UnaryOp.HasType.primitive {op : UnaryOp} {t u : Ty} (h : op.HasType t u) :
    Primitive u := by
  cases h with
  | plus h => exact h.primitive
  | minus h => exact h.primitive
  | not => exact .bool

theorem BinaryOp.HasType.primitive {op : BinaryOp} {t u r : Ty} (h : op.HasType t u r) :
    Primitive r := by
  cases h with
  | arithmetic _ h => cases h <;> constructor
  | mod => exact .int
  | numbers => exact .bool
  | equality => exact .bool
  | ordering => exact .bool
  | logic => exact .bool

theorem HasMaximum.primitive {ts : List Ty} {t : Ty} (h : HasMaximum ts t) : Primitive t := by
  cases h <;> constructor

theorem Ty.Declared.result {params : List Ty} {t : Ty} (h : (Ty.function params t).Declared)
    (ht : t ≠ .void) : t.OfValue := by
  generalize hu : Ty.function params t = u at h
  rcases h with ⟨⟨(b | ⟨k, b⟩)⟩⟩ | ⟨-, hr⟩
  · cases b <;> cases hu
  · cases hu
  · cases hu
    exact hr.resolve_left ht

theorem Ty.Declared.params {params : List Ty} {t : Ty} (h : (Ty.function params t).Declared) :
    ∀ p ∈ params, p.OfValue := by
  generalize hu : Ty.function params t = u at h
  rcases h with ⟨⟨(b | ⟨k, b⟩)⟩⟩ | ⟨hp, -⟩
  · cases b <;> cases hu
  · cases hu
  · cases hu
    exact hp

theorem Expr.HasType.declared {Γ : Context} (hΓ : Γ.Proper) {e : Expr} {t : Ty}
    (h : e.HasType Γ t) : t.Declared := by
  induction e using Expr.ind generalizing t with
  | literal m v =>
    cases h
    exact v.primitive_type.declared
  | name m x =>
    cases h with
    | name hx => exact hΓ _ _ _ hx
  | element m base index ih =>
    cases h with
    | element hb hi => exact (hΓ _ _ _ hb).elem.declared
  | call m callee args ih =>
    cases h with
    | call hc _ _ ht => exact .value ((hΓ _ _ _ hc).result ht)
  | paren m inner ih =>
    cases h with
    | paren hi => exact ih hi
  | unary m op operand ih =>
    cases h with
    | unary _ hop => exact hop.primitive.declared
  | binary m op lhs rhs ihl ihr =>
    cases h with
    | binary _ _ hop => exact hop.primitive.declared
  | max m args ih =>
    cases h with
    | max _ _ hmax => exact hmax.primitive.declared

theorem Target.HasType.declared {Γ : Context} (hΓ : Γ.Proper) {x : Target} {t : Ty}
    (h : x.HasType Γ t) : t.Declared := by
  cases h with
  | name hx _ => exact hΓ _ _ _ hx
  | element hb _ => exact (hΓ _ _ _ hb).elem.declared

theorem Function.declared_entries (f : Function) : ∀ e ∈ f.entries, e.type.Declared := by
  intro e he
  rcases List.mem_append.1 he with h | h
  · obtain ⟨p, -, rfl⟩ := List.mem_map.1 h
    exact .value (.spec p.type.spec)
  · obtain ⟨d, -, hd⟩ := List.mem_flatMap.1 h
    obtain ⟨x, -, rfl⟩ := List.mem_map.1 hd
    exact .value (.spec d.type.spec)

theorem Function.resultType_eq (f : Function) : f.resultType = .void ∨ f.resultType.OfValue := by
  unfold resultType
  cases f.result with
  | none => exact Or.inl rfl
  | some t => exact Or.inr (.spec t.spec)

theorem Function.declared_type (f : Function) : f.type.Declared := by
  refine .function (fun t ht => ?_) f.resultType_eq
  obtain ⟨p, -, rfl⟩ := List.mem_map.1 ht
  exact .spec p.type.spec

theorem Program.proper_context (p : Program) (f : Function) : (p.context f).Proper := by
  intro x role t hx
  have hmeaning : (Entry.meaning? f.entries x).or (Entry.meaning? p.entries x) =
      some (role, t) := hx
  rcases Option.or_eq_some_iff.1 hmeaning with h | ⟨-, h⟩
  · obtain ⟨e, he, -, -, rfl⟩ := Entry.exists_of_meaning? h
    exact f.declared_entries e he
  · obtain ⟨e, he, -, -, rfl⟩ := Entry.exists_of_meaning? h
    obtain ⟨g, -, rfl⟩ := List.mem_map.1 he
    exact g.declared_type

end Asl
