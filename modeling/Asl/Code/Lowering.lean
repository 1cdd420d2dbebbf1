import Asl.Attempt
import Asl.Attribute
import Asl.Code.Listing

/-!
# Lowering

Lowering turns the tree of a function into code. It is told what the names mean, which type every
node was found to have, and what the function gives back; it numbers temporaries and labels afresh
in every function, from one. The code of a part is returned, not written to a buffer, so the code of
the whole is built from the codes of its parts.

A tree that passed the rules of types can be lowered. Of any other tree, lowering may fail.
-/
namespace Asl

inductive LowerError
  | attribute (e : AttributeError)
  | scope (e : ScopeError)
  | unknownName (name : String)
  | notFunction (name : String)
  | tooManyArguments (name : String)
  | noValue (name : String)
  | arrayOperand (found : String)
  | emptyMax
deriving DecidableEq, Repr

def LowerError.message : LowerError → String
  | .attribute e => e.message
  | .scope e => e.message
  | .unknownName name => "unknown identifier `" ++ name ++ "`"
  | .notFunction name => "call to non-function `" ++ name ++ "`"
  | .tooManyArguments name => "too many arguments in call to `" ++ name ++ "`"
  | .noValue name => "procedure `" ++ name ++ "` used as a value"
  | .arrayOperand found => "whole-array assignment needs a named array, found " ++ found
  | .emptyMax => "`max` without arguments"

structure Lowering where
  meaning : String → Option (Role × Ty)
  typeOf : NodeId → Except AttributeError Ty
  result : Ty

structure Counters where
  temps : Nat
  branches : Nat
  loops : Nat
deriving DecidableEq, Repr

abbrev Lower (α : Type) : Type := Attempt LowerError Counters α

namespace Lower

open Attempt (fail)

def freshTemp : Lower Operand := fun c =>
  (.ok (.temp (c.temps + 1)), { c with temps := c.temps + 1 })

def freshBranch : Lower Nat := fun c =>
  (.ok (c.branches + 1), { c with branches := c.branches + 1 })

def freshLoop : Lower Nat := fun c => (.ok (c.loops + 1), { c with loops := c.loops + 1 })

def typeOf (Γ : Lowering) (node : NodeId) : Lower Ty :=
  Attempt.ofExcept ((Γ.typeOf node).mapError .attribute)

def isParameter (Γ : Lowering) (x : String) : Bool :=
  (Γ.meaning x).any fun m => m.1 = .parameter

def immediate (n : Int) : Lower (Code × Operand) := do
  let t ← freshTemp
  return ([.constant t (.int n)], t)

def toFloat (value : Operand) (type : Ty) : Lower (Code × Operand) :=
  if type = .int then do
    let t ← freshTemp
    return ([.unary .toFloat t value], t)
  else return ([], value)

/-- A value as a float, if it is an integer where a float is expected. -/
def coerce (value : Operand) (type expected : Ty) : Lower (Code × Operand) :=
  if expected = .float then toFloat value type else return ([], value)

/-- A temporary that keeps a value whatever is stored later. -/
def materialize (value : Operand) : Lower (Code × Operand) :=
  if value.text.toList.head? = some '%' then return ([], value)
  else do
    let t ← freshTemp
    return ([.copy t value], t)

/-- The base of an array: a parameter holds a reference, which is loaded first. -/
def arrayBase (Γ : Lowering) (array : Operand) : Lower (Code × Operand) :=
  if isParameter Γ array.text then do
    let t ← freshTemp
    return ([.copy t array], t)
  else return ([], array)

/-- The reference to an array that a call passes: a parameter is one already. -/
def reference (Γ : Lowering) (array : Operand) : Lower (Code × Operand) :=
  if isParameter Γ array.text then return ([], array)
  else do
    let t ← freshTemp
    return ([.address t array], t)

def numbers (t : Ty) : Numbers := if t = .float then .float else .whole

def channel : Ty → Channel
  | .float => .float
  | .char => .char
  | _ => .int

def operation (op : BinaryOp) (ns : Numbers) (dst a b : Operand) : Lower Code :=
  match op with
  | .mod => do
      let quotient ← freshTemp
      let product ← freshTemp
      return [.binary (.div .whole) quotient a b, .binary (.mul .whole) product quotient b,
        .binary (.sub .whole) dst a product]
  | .notEqual => return [.binary (.equal ns) dst a b, .unary .not dst dst]
  | .greater => return [.binary (.lessEqual ns) dst a b, .unary .not dst dst]
  | .greaterEqual => return [.binary (.less ns) dst a b, .unary .not dst dst]
  | .add => return [.binary (.add ns) dst a b]
  | .sub => return [.binary (.sub ns) dst a b]
  | .mul => return [.binary (.mul ns) dst a b]
  | .div => return [.binary (.div ns) dst a b]
  | .equal => return [.binary (.equal ns) dst a b]
  | .less => return [.binary (.less ns) dst a b]
  | .lessEqual => return [.binary (.lessEqual ns) dst a b]
  | .and => return [.binary .and dst a b]
  | .or => return [.binary .or dst a b]

def constantOf : Literal → Constant
  | .int n => .int n
  | .float x => .float x
  | .bool b => .int (if b then 1 else 0)
  | .char raw => .char raw

def calleeType (Γ : Lowering) (name : String) : Lower Ty :=
  match Γ.meaning name with
  | none => fail (.unknownName name)
  | some (_, f) => if f.isFunction then pure f else fail (.notFunction name)

def callCode (returnsValue : Bool) (arguments : Code) (name : String) (count : Nat) : Code :=
  (if returnsValue then [.push none] else []) ++ arguments ++ .call name ::
    List.replicate count (.pop none)

mutual

def expr (Γ : Lowering) : Expr → Lower (Code × Operand)
  | .literal _ value => do
      let t ← freshTemp
      return ([.constant t (constantOf value)], t)
  | .name _ x => return ([], .name x.name)
  | .element _ base index => do
      let (code, i) ← expr Γ index
      let (load, array) ← arrayBase Γ (.name base.name)
      let t ← freshTemp
      return (code ++ load ++ [.loadElement t array i], t)
  | .call _ callee args => do
      let f ← calleeType Γ callee.name
      if f.isProcedure then fail (.noValue callee.name)
      else do
        let pushes ← arguments Γ callee.name f.params args
        let t ← freshTemp
        return (callCode true pushes callee.name args.length ++ [.pop (some t)], t)
  | .paren _ inner => expr Γ inner
  | .unary m op operand => do
      let (code, value) ← expr Γ operand
      match op with
      | .plus => return (code, value)
      | .not => do
          let t ← freshTemp
          return (code ++ [.unary .not t value], t)
      | .minus => do
          let type ← typeOf Γ m.id
          let t ← freshTemp
          return (code ++ [.unary (.negate (numbers type)) t value], t)
  | .binary _ op lhs rhs => do
      let (codeA, a) ← expr Γ lhs
      let (codeB, b) ← expr Γ rhs
      let typeA ← typeOf Γ lhs.mark.id
      let typeB ← typeOf Γ rhs.mark.id
      let common := if typeA = .float || typeB = .float then Ty.float else Ty.int
      let (convA, a) ← coerce a typeA common
      let (convB, b) ← coerce b typeB common
      let t ← freshTemp
      let code ← operation op (numbers common) t a b
      return (codeA ++ codeB ++ convA ++ convB ++ code, t)
  | .max m args => do
      let type ← typeOf Γ m.id
      match args with
      | [] => fail .emptyMax
      | first :: rest => do
          let best ← freshTemp
          let firstType ← typeOf Γ first.mark.id
          let (code, value) ← expr Γ first
          let (conv, value) ← coerce value firstType type
          let more ← maxRest Γ type best rest
          return (code ++ conv ++ .copy best value :: more, best)

/-- The code that raises a running maximum to the further operands. -/
def maxRest (Γ : Lowering) (type : Ty) (best : Operand) : List Expr → Lower Code
  | [] => return []
  | e :: es => do
      let operandType ← typeOf Γ e.mark.id
      let (code, value) ← expr Γ e
      let (conv, value) ← coerce value operandType type
      let condition ← freshTemp
      let n ← freshBranch
      let more ← maxRest Γ type best es
      return code ++ conv ++
        [.binary (.less (numbers type)) condition best value,
          .jumpUnless condition ⟨.endmax, n⟩, .copy best value, .label ⟨.endmax, n⟩] ++ more

def arguments (Γ : Lowering) (callee : String) : List Ty → List Expr → Lower Code
  | _, [] => return []
  | [], _ :: _ => fail (.tooManyArguments callee)
  | p :: ps, e :: es => do
      let type ← typeOf Γ e.mark.id
      let (code, value) ← expr Γ e
      let (conv, value) ← if p.isArray then reference Γ value else coerce value type p
      let more ← arguments Γ callee ps es
      return code ++ conv ++ .push (some value) :: more

end

inductive Place
  | scalar (x : Operand)
  | element (base index : Operand)

def place (Γ : Lowering) : Target → Lower (Code × Place)
  | .name _ x => return ([], .scalar (.name x.name))
  | .element _ base index => do
      let (code, i) ← expr Γ index
      let (load, array) ← arrayBase Γ (.name base.name)
      return (code ++ load, .element array i)

def Place.store : Place → Operand → Instr
  | .scalar x, value => .copy x value
  | .element base index, value => .storeElement base index value

def copyElements (dst src index elem : Operand) (size : Nat) : Code :=
  (List.range size).flatMap fun (k : Nat) =>
    [.constant index (.int k), .loadElement elem src index, .storeElement dst index elem]

/-- A whole array is copied from a name, which may stand in parentheses. -/
def copyArray (Γ : Lowering) (dst : String) (size : Nat) (value : Expr) : Lower Code := do
  let (code, src) ← match value with
    | .name .. | .paren .. => expr Γ value
    | _ => fail (.arrayOperand "a computed value")
  let (loadSrc, srcBase) ← arrayBase Γ src
  let (loadDst, dstBase) ← arrayBase Γ (.name dst)
  let index ← freshTemp
  let elem ← freshTemp
  return code ++ loadSrc ++ loadDst ++ copyElements dstBase srcBase index elem size

def assign (Γ : Lowering) (target : Target) (value : Expr) : Lower Code := do
  let type ← typeOf Γ target.mark.id
  if type.isArray then
    match target with
    | .name _ x => copyArray Γ x.name type.length value
    | .element .. => fail (.arrayOperand "an indexed target")
  else do
    let valueType ← typeOf Γ value.mark.id
    let (before, p) ← place Γ target
    let (code, src) ← expr Γ value
    let (conv, src) ← coerce src valueType type
    return before ++ code ++ conv ++ [p.store src]

/-- The characters of a raw text, written through one temporary. A backslash joins the character
after it where the two are an escape, and stands for itself elsewhere. -/
def writeChars (t : Operand) : List Char → Code
  | [] => []
  | '\\' :: 'n' :: cs => .writeLine :: writeChars t cs
  | '\\' :: 't' :: cs => .constant t (.char "\\t") :: .write .char t :: writeChars t cs
  | '\\' :: '"' :: cs => .constant t (.char "\\\"") :: .write .char t :: writeChars t cs
  | '\\' :: '\\' :: cs => .constant t (.char "\\\\") :: .write .char t :: writeChars t cs
  | c :: cs => .constant t (.char c.toString) :: .write .char t :: writeChars t cs

/-- The value of an integer that is written with signs and parentheses, in 64 bits. -/
def constantInt : Expr → Option Int
  | .literal _ (.int n) => some n
  | .paren _ inner => constantInt inner
  | .unary _ .plus operand => constantInt operand
  | .unary _ .minus operand =>
      (constantInt operand).bind fun n => if n = -(integerBound : Int) then none else some (-n)
  | _ => none

def bounds (Γ : Lowering) : List Expr → Lower (Code × List Operand)
  | [] => return ([], [])
  | e :: es => do
      let (code, value) ← expr Γ e
      let (keep, value) ← materialize value
      let (more, values) ← bounds Γ es
      return (code ++ keep ++ more, value :: values)

/-- Which way a loop counts, as far as its step says so. -/
inductive Direction
  | up
  | down
  /-- The operand says at run time whether the loop counts up. -/
  | tested (isUp : Operand)

def direction (step : Operand) (written : Option Expr) : Lower (Code × Direction) :=
  match written.elim (some 1) constantInt with
  | some k => if 0 < k then return ([], .up) else if k < 0 then return ([], .down) else test
  | none => test
where
  test : Lower (Code × Direction) := do
    let (code, zero) ← immediate 0
    let isUp ← freshTemp
    return (code ++ [.binary (.less .whole) isUp zero step], .tested isUp)

/-- The test at the head of loop `n`, which leaves in `condition` whether to go on. -/
def loopTest (n : Nat) (condition control stop : Operand) : Direction → Code
  | .up => [.binary (.less .whole) condition control stop]
  | .down => [.binary (.less .whole) condition stop control]
  | .tested isUp =>
      [.jumpUnless isUp ⟨.forDown, n⟩,
        .binary (.less .whole) condition control stop,
        .jump ⟨.forTest, n⟩,
        .label ⟨.forDown, n⟩,
        .binary (.less .whole) condition stop control,
        .label ⟨.forTest, n⟩]

def loopBounds : List Operand → Lower (Option (Code × Operand × Operand × Operand))
  | [] => return none
  | [stop] => do
      let (zero, start) ← immediate 0
      let (one, step) ← immediate 1
      return some (zero ++ one, start, stop, step)
  | [start, stop] => do
      let (one, step) ← immediate 1
      return some (one, start, stop, step)
  | start :: stop :: step :: _ => return some ([], start, stop, step)

mutual

def stmt (Γ : Lowering) : Stmt → Lower Code
  | .assign _ target value => assign Γ target value
  | .ifThen _ condition body => do
      let (test, c) ← expr Γ condition
      let n ← freshBranch
      let yes ← stmts Γ body
      return test ++ .jumpUnless c ⟨.endif, n⟩ :: yes ++ [.label ⟨.endif, n⟩]
  | .ifElse _ condition body otherwise => do
      let (test, c) ← expr Γ condition
      let n ← freshBranch
      let yes ← stmts Γ body
      let no ← stmts Γ otherwise
      return test ++ .jumpUnless c ⟨.else, n⟩ :: yes ++
        .jump ⟨.endif, n⟩ :: .label ⟨.else, n⟩ :: no ++ [.label ⟨.endif, n⟩]
  | .while _ condition body => do
      let n ← freshLoop
      let (test, c) ← expr Γ condition
      let inner ← stmts Γ body
      return .label ⟨.while, n⟩ :: test ++ .jumpUnless c ⟨.endwhile, n⟩ :: inner ++
        [.jump ⟨.while, n⟩, .label ⟨.endwhile, n⟩]
  | .for _ control range body => do
      let (evaluate, values) ← bounds Γ range
      match ← loopBounds values with
      | none => return []
      | some (defaults, start, stop, step) => do
          let (sign, dir) ← direction step range[2]?
          let n ← freshLoop
          let condition ← freshTemp
          let inner ← stmts Γ body
          let i := Operand.name control.name
          return evaluate ++ defaults ++ sign ++ .copy i start :: .label ⟨.for, n⟩ ::
            loopTest n condition i stop dir ++ .jumpUnless condition ⟨.endfor, n⟩ :: inner ++
            [.binary (.add .whole) i i step, .jump ⟨.for, n⟩, .label ⟨.endfor, n⟩]
  | .call _ callee args => do
      let f ← calleeType Γ callee.name
      let pushes ← arguments Γ callee.name f.params args
      return callCode (!f.isProcedure) pushes callee.name args.length ++
        if f.isProcedure then [] else [.pop none]
  | .read _ target => do
      let type ← typeOf Γ target.mark.id
      let (before, p) ← place Γ target
      match p with
      | .scalar x => return before ++ [.read (channel type) x]
      | .element base index => do
          let t ← freshTemp
          return before ++ [.read (channel type) t, .storeElement base index t]
  | .write _ value => do
      let type ← typeOf Γ value.mark.id
      let (code, v) ← expr Γ value
      return code ++ [.write (channel type) v]
  | .writeText _ raw => do
      let t ← freshTemp
      return writeChars t raw.toList
  | .ret _ none => return [.ret]
  | .ret _ (some value) => do
      let type ← typeOf Γ value.mark.id
      let (code, v) ← expr Γ value
      let (conv, v) ← coerce v type Γ.result
      return code ++ conv ++ [.copy .result v, .ret]

def stmts (Γ : Lowering) : List Stmt → Lower Code
  | [] => return []
  | s :: ss => do
      let code ← stmt Γ s
      let more ← stmts Γ ss
      return code ++ more

end

example (Γ : Lowering) (m : Mark) (x : Ident) :
    ((stmts Γ [.while m (.name m x) [.ret m none]]).run ⟨0, 0, 0⟩).1 =
      .ok [.label ⟨.while, 1⟩, .jumpUnless (.name x.name) ⟨.endwhile, 1⟩, .ret, .jump ⟨.while, 1⟩,
        .label ⟨.endwhile, 1⟩] := by cbv

def locals (Γ : Lowering) : List Declaration → Lower (List Variable)
  | [] => return []
  | d :: ds => do
      let type ← typeOf Γ d.type.mark.id
      let more ← locals Γ ds
      return d.names.map (⟨·.name, type.cells⟩) ++ more

/-- A procedure ends with a return, which is added unless it is there. -/
def closed (isProcedure : Bool) (code : Code) : Code :=
  if isProcedure && code.getLast? ≠ some .ret then code ++ [.ret] else code

def function (Γ : Lowering) (type : Ty) (f : Function) : Lower Subroutine := do
  let vars ← locals Γ f.declarations
  let code ← stmts Γ f.body
  return {
    name := f.name.name
    params := (if type.isProcedure then [] else [resultName]) ++ f.params.map (·.name.name)
    locals := vars
    code := closed type.isProcedure code }

def subroutine (Γ : Lowering) (type : Ty) (f : Function) : Except LowerError Subroutine :=
  ((function Γ type f).run ⟨0, 0, 0⟩).1

end Lower

end Asl
