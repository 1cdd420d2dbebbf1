import Asl.Diagnostic
import Asl.Ty.Basic
import Asl.Scope.Basic

/-!
# The rules of types

A body is judged in a context: what its names mean, and what its function gives back. Judging an
expression gives its type, whether it is a place that can be stored into, a note of both for every
node of it, and a diagnostic for every broken rule. A part that broke a rule has the error type,
about which the rules of the whole are silent, so each mistake is reported where it is made.

Judging depends on the context and the tree alone: nothing that is noted is looked up again.
-/
namespace Asl

/-- The type of a node, and whether it is a place. -/
structure Note where
  node : NodeId
  type : Ty
  isPlace : Bool
deriving DecidableEq, Repr

/-- What judging a part of a program brings to light, in the order in which it does. -/
structure Report where
  notes : List Note
  diagnostics : List Diagnostic
deriving DecidableEq, Repr

namespace Report

def empty : Report := ⟨[], []⟩

instance : Append Report := ⟨fun r s => ⟨r.notes ++ s.notes, r.diagnostics ++ s.diagnostics⟩⟩

@[simp] theorem notes_append (r s : Report) : (r ++ s).notes = r.notes ++ s.notes := rfl

@[simp] theorem diagnostics_append (r s : Report) :
    (r ++ s).diagnostics = r.diagnostics ++ s.diagnostics := rfl

def note (m : Mark) (type : Ty) (isPlace : Bool) : Report := ⟨[⟨m.id, type, isPlace⟩], []⟩

def fault (m : Mark) (f : Fault) : Report := ⟨[], [⟨m, f⟩]⟩

def faultIf (broken : Bool) (m : Mark) (f : Fault) : Report := if broken then fault m f else empty

end Report

structure Judgement where
  type : Ty
  isPlace : Bool
  report : Report

/-- The judgement of a list of expressions: their marks with their types. -/
structure Judgements where
  types : List (Mark × Ty)
  report : Report

/-- What the names of a body mean and what its function gives back. -/
structure Context where
  meaning : String → Option (Role × Ty)
  result : Ty

open Report in
/-- A judgement of a node, with the note of it behind what its parts brought to light. -/
def Judgement.of (m : Mark) (type : Ty) (isPlace : Bool) (parts : Report) : Judgement :=
  ⟨type, isPlace, parts ++ note m type isPlace⟩

namespace Ty

/-- A type about which a rule speaks, and that the rule does not admit. -/
def violates (t : Ty) (admits : Ty → Bool) : Bool := t ≠ .error && !admits t

def ofUnary? (op : UnaryOp) (t : Ty) : Option Ty :=
  match op with
  | .not => if t.violates (· = .bool) then none else some .bool
  | _ => if t.violates isNumeric then none else some t

/-- The types that an operator of two operands admits. -/
def admits (op : BinaryOp) (t u : Ty) : Bool :=
  if op = .mod then t = .int && u = .int
  else if op.isArithmetic then t.isNumeric && u.isNumeric
  else if op.isRelational then comparable op t u
  else t = .bool && u = .bool

/-- The type of numbers that two or more numbers combine to. -/
def join (ts : List Ty) : Ty := if ts.any (· = .float) then .float else .int

end Ty

open Report

namespace Context

def judgeName (Γ : Context) (x : Ident) : Judgement :=
  match Γ.meaning x.name with
  | some (role, type) => .of x.mark type (role ≠ .function) empty
  | none => .of x.mark .error true (fault x.mark (.undeclared x.name))

def judgeElement (m : Mark) (base : Ident) (array index : Judgement) (indexMark : Mark) :
    Judgement :=
  let notArray := array.type.violates Ty.isArray
  let badIndex := index.type.violates (· = .int)
  let parts := array.report ++ index.report ++ faultIf notArray base.mark (.notArray base.name) ++
    faultIf badIndex indexMark .indexType
  if array.type = .error || notArray || badIndex then .of m .error false parts
  else .of m array.type.elem true parts

/-- The arguments that do not fit their parameters, counted from `position`. -/
def argumentFaults (callee : String) (position : Nat) : List (Mark × Ty) → List Ty → Report
  | (m, t) :: args, p :: ps =>
      faultIf (t.violates p.accepts) m (.argumentType position callee) ++
        argumentFaults callee (position + 1) args ps
  | _, _ => empty

/-- The type of a call's value, and the faults of the call itself. -/
def judgeCall (callee : Ident) (asValue : Bool) (f : Ty) (args : List (Mark × Ty)) : Ty × Report :=
  if f = .error then (.error, empty)
  else if !f.isFunction then (.error, fault callee.mark (.notCallable callee.name))
  else
    let faults :=
      faultIf (f.params.length ≠ args.length) callee.mark
          (.argumentCount callee.name f.params.length args.length) ++
        argumentFaults callee.name 1 args f.params
    if asValue && f.result = .void then
      (.error, faults ++ fault callee.mark (.noValue callee.name))
    else (f.result, faults)

def judgeUnary (m : Mark) (op : UnaryOp) (operand : Judgement) : Judgement :=
  let name := op.token.spelling
  match Ty.ofUnary? op operand.type, op with
  | some t, _ => .of m t false operand.report
  | none, .not => .of m .bool false (operand.report ++ fault m (.operandTypes name))
  | none, _ => .of m .error false (operand.report ++ fault m (.operandTypes name))

def judgeBinary (m : Mark) (op : BinaryOp) (lhs rhs : Judgement) : Judgement :=
  let silent := lhs.type = .error || rhs.type = .error
  let broken := !silent && !Ty.admits op lhs.type rhs.type
  let parts := lhs.report ++ rhs.report ++ faultIf broken m (.operandTypes op.token.spelling)
  if !op.isArithmetic then .of m .bool false parts
  else if silent || broken then .of m .error false parts
  else .of m (.join [lhs.type, rhs.type]) false parts

def judgeMax (m : Mark) (types : List Ty) (parts : Report) : Judgement :=
  if types.length < 2 then .of m .error false (parts ++ fault m (.maxCount types.length))
  else if types.any (· = .error) then .of m .error false parts
  else if types.all Ty.isNumeric then .of m (.join types) false parts
  else if types.all (· = .char) then .of m .char false parts
  else .of m .error false (parts ++ fault m .maxTypes)

end Context

open Context

def Literal.type : Literal → Ty
  | .int _ => .int
  | .float _ => .float
  | .bool _ => .bool
  | .char _ => .char

mutual

def Expr.judge (Γ : Context) : Expr → Judgement
  | .literal m value => .of m value.type false empty
  | .name m x =>
      let j := Γ.judgeName x
      .of m j.type j.isPlace j.report
  | .element m base index => judgeElement m base (Γ.judgeName base) (index.judge Γ) index.mark
  | .call m callee args =>
      let f := Γ.judgeName callee
      let js := Expr.judgeAll Γ args
      let call := judgeCall callee true f.type js.types
      .of m call.1 false (f.report ++ js.report ++ call.2)
  | .paren m inner =>
      let j := inner.judge Γ
      .of m j.type j.isPlace j.report
  | .unary m op operand => judgeUnary m op (operand.judge Γ)
  | .binary m op lhs rhs => judgeBinary m op (lhs.judge Γ) (rhs.judge Γ)
  | .max m args =>
      let js := Expr.judgeAll Γ args
      judgeMax m (js.types.map Prod.snd) js.report

def Expr.judgeAll (Γ : Context) : List Expr → Judgements
  | [] => ⟨[], empty⟩
  | e :: es =>
      let j := e.judge Γ
      let js := Expr.judgeAll Γ es
      ⟨(e.mark, j.type) :: js.types, j.report ++ js.report⟩

end

def Target.judge (Γ : Context) : Target → Judgement
  | .name m x =>
      let j := Γ.judgeName x
      .of m j.type j.isPlace j.report
  | .element m base index => judgeElement m base (Γ.judgeName base) (index.judge Γ) index.mark

def Expr.judgeCondition (Γ : Context) (instruction : String) (e : Expr) : Report :=
  let j := e.judge Γ
  j.report ++ faultIf (j.type.violates (· = .bool)) e.mark (.conditionType instruction)

def Expr.judgeRange (Γ : Context) : List Expr → Report
  | [] => empty
  | e :: es =>
      let j := e.judge Γ
      j.report ++ faultIf (j.type.violates (· = .int)) e.mark .rangeType ++ Expr.judgeRange Γ es

mutual

def Stmt.judge (Γ : Context) : Stmt → Report
  | .assign m target value =>
      let t := target.judge Γ
      let v := value.judge Γ
      t.report ++ v.report ++
        faultIf (t.type ≠ .error && v.type.violates t.type.accepts) m
          (.assignTypes t.type.text v.type.text) ++
        faultIf (t.type ≠ .error && !t.isPlace) target.mark .assignPlace
  | .ifThen _ condition body => condition.judgeCondition Γ "if" ++ Stmt.judgeAll Γ body
  | .ifElse _ condition body otherwise =>
      condition.judgeCondition Γ "if" ++ Stmt.judgeAll Γ body ++ Stmt.judgeAll Γ otherwise
  | .while _ condition body => condition.judgeCondition Γ "while" ++ Stmt.judgeAll Γ body
  | .for m control range body =>
      let c := Γ.judgeName control
      c.report ++ faultIf (c.type.violates (· = .int)) control.mark .controlType ++
        faultIf (range.isEmpty || 3 < range.length) m (.rangeCount range.length) ++
        Expr.judgeRange Γ range ++ Stmt.judgeAll Γ body
  | .call _ callee args =>
      let f := Γ.judgeName callee
      let js := Expr.judgeAll Γ args
      f.report ++ js.report ++ (judgeCall callee false f.type js.types).2
  | .read _ target =>
      let t := target.judge Γ
      t.report ++ faultIf (t.type.violates Ty.isPrimitive) target.mark (.notPrimitive "read") ++
        faultIf (t.type ≠ .error && !t.isPlace) target.mark .readPlace
  | .write _ value =>
      let v := value.judge Γ
      v.report ++ faultIf (v.type.violates Ty.isPrimitive) value.mark (.notPrimitive "write")
  | .writeText _ _ => empty
  | .ret m none => faultIf (Γ.result ≠ .void) m .returnType
  | .ret m (some value) =>
      let v := value.judge Γ
      v.report ++ faultIf (v.type.violates Γ.result.accepts) m .returnType

def Stmt.judgeAll (Γ : Context) : List Stmt → Report
  | [] => empty
  | s :: ss => s.judge Γ ++ Stmt.judgeAll Γ ss

end

end Asl
