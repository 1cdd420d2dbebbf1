import Asl.Proofs.Meaning.World
import Asl.Text.Glyph
import Asl.Typing

/-!
# The meaning of trees

Operands are evaluated from left to right, all of them, and the index of an element before the value
that is assigned to it. An integer is converted wherever a float is expected; the types of the parts
are those that the checker finds. A body is executed with a bound on the rounds of every loop: it
finishes if it does so with some bound.
-/
namespace Asl

open Attempt (fail)
open Act (perform fetch)
open Effect (calculate)

variable {D : Domain}

def Ty.arithmetic : Ty → Numbers
  | .float => .float
  | _ => .whole

/-- The channel of a type, which takes truth values as integers. -/
def Ty.medium : Ty → Channel
  | .float => .float
  | .char => .char
  | _ => .int

/-- The integer that a numeral with signs and parentheses stands for. The least integer has no
negation. -/
def Expr.numeral? : Expr → Option Int
  | .literal _ (.int n) => some n
  | .paren _ inner => inner.numeral?
  | .unary _ .plus operand => operand.numeral?
  | .unary _ .minus operand => do
      let n ← operand.numeral?
      if n + integerBound = 0 then none else some (-n)
  | _ => none

namespace Interpretation

variable (I : Interpretation D)

def literal : Literal → D.Value
  | .int n => I.constant (.int n)
  | .float x => I.constant (.float x)
  | .bool true => I.constant (.int 1)
  | .bool false => I.constant (.int 0)
  | .char raw => I.constant (.char raw)

/-- A value where a type is expected: an integer becomes a float. -/
def convert (type expected : Ty) (v : D.Value) : Act D D.Value :=
  if expected = .float ∧ type = .int then perform (calculate (I.unary .toFloat v)) else pure v

def binaryAct (op : BinaryInstr) (a b : D.Value) : Act D D.Value :=
  perform (calculate (I.binary op a b))

def unaryAct (op : UnaryInstr) (a : D.Value) : Act D D.Value := perform (calculate (I.unary op a))

def operator (op : BinaryOp) (ns : Numbers) (a b : D.Value) : Act D D.Value :=
  match op with
  | .add => I.binaryAct (.add ns) a b
  | .sub => I.binaryAct (.sub ns) a b
  | .mul => I.binaryAct (.mul ns) a b
  | .div => I.binaryAct (.div ns) a b
  | .mod => do
      let quotient ← I.binaryAct (.div .whole) a b
      let product ← I.binaryAct (.mul .whole) quotient b
      I.binaryAct (.sub .whole) a product
  | .equal => I.binaryAct (.equal ns) a b
  | .less => I.binaryAct (.less ns) a b
  | .lessEqual => I.binaryAct (.lessEqual ns) a b
  | .notEqual => I.binaryAct (.equal ns) a b >>= I.unaryAct .not
  | .greater => I.binaryAct (.lessEqual ns) a b >>= I.unaryAct .not
  | .greaterEqual => I.binaryAct (.less ns) a b >>= I.unaryAct .not
  | .and => I.binaryAct .and a b
  | .or => I.binaryAct .or a b

/-- What a name stands for: an array by its reference, anything else by its value. -/
def nameValue (Γ : Context) (x : String) : Act D D.Value :=
  match Γ.meaning x with
  | some (.variable, .array _ _) => pure (I.owned x)
  | _ => fetch x

end Interpretation

def Context.paramsOf (Γ : Context) (f : String) : List Ty :=
  match Γ.meaning f with
  | some (_, t) => t.params
  | none => []

section

variable (I : Interpretation D) (Γ : Context)

mutual

def Expr.eval : Expr → Act D D.Value
  | .literal _ value => pure (I.literal value)
  | .name _ x => I.nameValue Γ x.name
  | .element _ base index => do
      let i ← index.eval
      let array ← I.nameValue Γ base.name
      perform (.load I array i)
  | .call _ callee args => do
      let vs ← Expr.evalArguments (Γ.paramsOf callee.name) args
      match ← perform (I.call callee.name vs) with
      | some v => pure v
      | none => fail .stuck
  | .paren _ inner => inner.eval
  | .unary m op operand => do
      let v ← operand.eval
      match op with
      | .plus => pure v
      | .not => I.unaryAct .not v
      | .minus => I.unaryAct (.negate ((Expr.unary m op operand).judge Γ).type.arithmetic) v
  | .binary _ op lhs rhs => do
      let a ← lhs.eval
      let b ← rhs.eval
      let typeA := (lhs.judge Γ).type
      let typeB := (rhs.judge Γ).type
      let common := Ty.join [typeA, typeB]
      let a ← I.convert typeA common a
      let b ← I.convert typeB common b
      I.operator op common.arithmetic a b
  | .max m args =>
      match args with
      | [] => fail .stuck
      | first :: rest => do
          let type := ((Expr.max m (first :: rest)).judge Γ).type
          let v ← first.eval
          let v ← I.convert (first.judge Γ).type type v
          Expr.evalMax type rest v

/-- The greatest of some operands and the greatest so far. -/
def Expr.evalMax (type : Ty) : List Expr → D.Value → Act D D.Value
  | [], best => pure best
  | e :: es, best => do
      let v ← e.eval
      let v ← I.convert (e.judge Γ).type type v
      let isLess ← I.binaryAct (.less type.arithmetic) best v
      Expr.evalMax type es (if I.holds isLess then v else best)

def Expr.evalArguments : List Ty → List Expr → Act D (List D.Value)
  | _, [] => pure []
  | [], _ :: _ => fail .stuck
  | p :: ps, e :: es => do
      let v ← e.eval
      let v ← I.convert (e.judge Γ).type p v
      let vs ← Expr.evalArguments ps es
      pure (v :: vs)

end

end

/-- How a statement ends: with the one behind it to go on, or with a return from the function. -/
inductive Ending (D : Domain)
  | normal
  | returned (value : Option D.Value)

inductive Place (D : Domain)
  | scalar (x : String)
  | element (array index : D.Value)

namespace Interpretation

variable (I : Interpretation D)

def set : Place D → D.Value → Act D Unit
  | .scalar x, v => Act.assign x v
  | .element array index, v => perform (.store I array index v)

def copyCells (dst src : D.Value) (size : Nat) : Act D Unit :=
  (List.range size).forM fun (k : Nat) => do
    let v ← perform (.load I src (I.constant (.int k)))
    perform (.store I dst (I.constant (.int k)) v)

def written : Glyph → Written D
  | .char raw => .value .char (I.constant (.char raw))
  | .line => .line

/-- Start, stop and step of a loop; the start is zero and the step is one unless they are written.
-/
def range : List D.Value → Option (D.Value × D.Value × D.Value)
  | [] => none
  | [stop] => some (I.constant (.int 0), stop, I.constant (.int 1))
  | [start, stop] => some (start, stop, I.constant (.int 1))
  | start :: stop :: step :: _ => some (start, stop, step)

def isPositive (v : D.Value) : Act D Bool :=
  I.holds <$> I.binaryAct (.less .whole) (I.constant (.int 0)) v

/-- Whether a loop counts up. The sign of a numeral is known unless it is zero; any other step is
tested. -/
def countsUp (step : D.Value) (written : Option Expr) : Act D Bool :=
  match written.map Expr.numeral? with
  | none => pure true
  | some none => I.isPositive step
  | some (some k) => if k = 0 then I.isPositive step else pure (decide (0 < k))

def loop (test : Act D D.Value) (body : Act D (Ending D)) (next : Act D Unit) :
    Nat → Act D (Ending D)
  | 0 => fail .outOfFuel
  | n + 1 => do
      let condition ← test
      if I.holds condition then
        match ← body with
        | .normal => do
            next
            loop test body next n
        | .returned v => pure (.returned v)
      else pure .normal

end Interpretation

section

variable (I : Interpretation D) (Γ : Context) (n : Nat)

def Target.place : Target → Act D (Place D)
  | .name _ x => pure (.scalar x.name)
  | .element _ base index => do
      let i ← index.eval I Γ
      let array ← I.nameValue Γ base.name
      pure (.element array i)

def Stmt.assignValue (target : Target) (value : Expr) : Act D Unit := do
  let place ← target.place I Γ
  let v ← value.eval I Γ
  let v ← I.convert (value.judge Γ).type (target.judge Γ).type v
  I.set place v

def Stmt.assignArray (x : String) (size : Nat) (value : Expr) : Act D Unit := do
  let src ← value.eval I Γ
  let dst ← I.nameValue Γ x
  I.copyCells dst src size

mutual

/-- Executes a statement with at most `n` rounds of every loop. -/
def Stmt.exec : Stmt → Act D (Ending D)
  | .assign _ target value => do
      match (target.judge Γ).type, target with
      | .array size _, .name _ x => Stmt.assignArray I Γ x.name size value
      | _, _ => Stmt.assignValue I Γ target value
      pure .normal
  | .ifThen _ condition body => do
      let v ← condition.eval I Γ
      if I.holds v then Stmt.execAll body else pure .normal
  | .ifElse _ condition body otherwise => do
      let v ← condition.eval I Γ
      if I.holds v then Stmt.execAll body else Stmt.execAll otherwise
  | .while _ condition body => I.loop (condition.eval I Γ) (Stmt.execAll body) (pure ()) n
  | .for _ control range body => do
      let vs ← range.mapM (Expr.eval I Γ)
      match I.range vs with
      | none => pure .normal
      | some (start, stop, step) => do
          let isUp ← I.countsUp step range[2]?
          Act.assign control.name start
          let test := do
            let i ← fetch control.name
            if isUp then I.binaryAct (.less .whole) i stop else I.binaryAct (.less .whole) stop i
          let next := do
            let i ← fetch control.name
            let v ← I.binaryAct (.add .whole) i step
            Act.assign control.name v
          I.loop test (Stmt.execAll body) next n
  | .call _ callee args => do
      let vs ← Expr.evalArguments I Γ (Γ.paramsOf callee.name) args
      let _ ← perform (I.call callee.name vs)
      pure .normal
  | .read _ target => do
      let place ← target.place I Γ
      let v ← perform (.read I (target.judge Γ).type.medium)
      I.set place v
      pure .normal
  | .write _ value => do
      let v ← value.eval I Γ
      perform (.write (.value (value.judge Γ).type.medium v))
      pure .normal
  | .writeText _ raw => do
      (Glyph.ofText raw.toList).forM fun x => perform (.write (I.written x))
      pure .normal
  | .ret _ none => pure (.returned none)
  | .ret _ (some value) => do
      let v ← value.eval I Γ
      let v ← I.convert (value.judge Γ).type Γ.result v
      pure (.returned (some v))

def Stmt.execAll : List Stmt → Act D (Ending D)
  | [] => pure .normal
  | s :: ss => do
      match ← s.exec with
      | .normal => Stmt.execAll ss
      | .returned v => pure (.returned v)

end

end

end Asl
