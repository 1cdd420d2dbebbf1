import Asl.Sample.Draw
import Asl.Tree.Printer

/-!
# Sample programs

A sample program obeys all rules of the language, whatever is drawn. It always has the same three
functions, `scale`, `fill` and `main`, with the same declarations; the bodies are drawn from the
names that the declarations provide, each expression for a type that its place demands. Depths bound
how far expressions and statements nest.
-/
namespace Asl.Sample

structure Vocabulary where
  names : BaseType → List String
  array : Option String
  /-- Whether `scale` and `fill` may be called. -/
  calls : Bool

def scaleNames : Vocabulary where
  names
    | .int => ["n"]
    | .float => ["x", "t"]
    | _ => []
  array := none
  calls := false

def fillNames : Vocabulary where
  names
    | .int => ["n", "j"]
    | _ => []
  array := some "v"
  calls := false

def mainNames : Vocabulary where
  names
    | .int => ["i0", "i1", "k"]
    | .float => ["f0"]
    | .bool => ["b0"]
    | .char => ["c0"]
  array := some "a0"
  calls := true

def arraySize : Nat := 5

/-- The depth of expressions that have room. -/
def maxDepth : Nat := 3

def ident (x : String) : Ident := ⟨.blank, x⟩
def nameExpr (x : String) : Expr := .name .blank (ident x)
def note (spec : TypeSpec) : TypeNote := ⟨.blank, spec⟩
def intArray : TypeSpec := .array arraySize .int
def binary (op : BinaryOp) (lhs rhs : Expr) : Expr := .binary .blank op lhs rhs
def negated (e : Expr) : Expr := .unary .blank .minus e
def assign (x : String) (value : Expr) : Stmt := .assign .blank (.name .blank (ident x)) value

def assignElement (array : String) (index value : Expr) : Stmt :=
  .assign .blank (.element .blank (ident array) index) value

def callFill (value : Expr) : Stmt := .call .blank (ident "fill") [nameExpr "a0", value]

open Draw

def charText : Draw String := oneOf "a" ["q", "Z", "0", " ", "\\n", "\\t"]

def baseType : Draw BaseType := oneOf .int [.float, .bool, .char]

def numericType : Draw BaseType := do return if ← coin then .int else .float

def comparedTypes : Draw (BaseType × BaseType) := do
  if (← below 4) = 0 then return (.char, .char)
  else
    let t ← numericType
    let u ← numericType
    return (t, u)

/-- A byte and a number of hundredths. -/
def floatValue : Draw Binary64 := do
  let whole ← byte
  let hundredths ← below 100
  return .addNat whole (.ofRatio false hundredths 100)

def literal : BaseType → Draw Literal
  | .int => do return .int (← byte)
  | .float => do return .float (← floatValue)
  | .bool => do return .bool (← coin)
  | .char => do return .char (← charText)

/-- A name of a type, if the vocabulary has one and the coin says so. -/
def name? (Γ : Vocabulary) (t : BaseType) : Draw (Option String) := do
  if ← coin then oneOf? (Γ.names t) else return none

def leaf (Γ : Vocabulary) (t : BaseType) : Draw Expr := do
  match ← name? Γ t with
  | some x => return nameExpr x
  | none => return .literal .blank (← literal t)

/-- An expression of a type whose parts are drawn by `part`. -/
def composite (Γ : Vocabulary) (part : BaseType → Draw Expr) : BaseType → Draw Expr
  | .int => do
      match ← below 5 with
      | 0 =>
          let op ← oneOf BinaryOp.add [.sub, .mul, .div, .mod]
          let lhs ← part .int
          let rhs ← part .int
          return binary op lhs rhs
      | 1 => return negated (← part .int)
      | 2 => return .paren .blank (← part .int)
      | 3 =>
          let x ← part .int
          let y ← part .int
          return .max .blank [x, y]
      | _ =>
          match Γ.array with
          | some a => return .element .blank (ident a) (← part .int)
          | none => leaf Γ .int
  | .float => do
      match ← below 4 with
      | 0 =>
          let op ← oneOf BinaryOp.add [.sub, .mul, .div]
          let (t, u) ← oneOf (BaseType.float, BaseType.int) [(.int, .float), (.float, .float)]
          let lhs ← part t
          let rhs ← part u
          return binary op lhs rhs
      | 1 => return negated (← part .float)
      | 2 =>
          let x ← part .int
          let y ← part .float
          let z ← part .int
          return .max .blank [x, y, z]
      | _ =>
          if Γ.calls then
            let t ← numericType
            let n ← part .int
            let x ← part t
            return .call .blank (ident "scale") [n, x]
          else leaf Γ .float
  | .bool => do
      match ← below 4 with
      | 0 =>
          let op ← oneOf BinaryOp.equal [.notEqual, .less, .lessEqual, .greater, .greaterEqual]
          let (t, u) ← comparedTypes
          let lhs ← part t
          let rhs ← part u
          return binary op lhs rhs
      | 1 =>
          let op := if ← coin then BinaryOp.and else .or
          let lhs ← part .bool
          let rhs ← part .bool
          return binary op lhs rhs
      | 2 => return .unary .blank .not (← part .bool)
      | _ => return .paren .blank (← part .bool)
  | .char => do
      if ← coin then
        let x ← part .char
        let y ← part .char
        return .max .blank [x, y]
      else leaf Γ .char

def expr (Γ : Vocabulary) : Nat → BaseType → Draw Expr
  | 0, t => leaf Γ t
  | depth + 1, t => do
      if (← below 3) = 0 then leaf Γ t else composite Γ (expr Γ depth) t

def rawText : Draw String := do
  let length ← below 6
  let pieces ← replicate (oneOf "a" ["b", "z", " ", "\\n", "\\t", "\\\"", "\\\\", "0"]) (length + 1)
  return String.join pieces

def writeOf (Γ : Vocabulary) (t : BaseType) : Draw Stmt := do
  return .write .blank (← expr Γ 2 t)

def simple (Γ : Vocabulary) : Nat → Draw Stmt
  | 0 => do
      let t ← baseType
      match ← oneOf? (Γ.names t) with
      | some x => return assign x (← expr Γ maxDepth t)
      | none => writeOf Γ t
  | 1 => do writeOf Γ (← baseType)
  | 2 => do return .writeText .blank (← rawText)
  | 3 => do
      match ← oneOf? (Γ.names .int) with
      | some x => return .read .blank (.name .blank (ident x))
      | none => writeOf Γ .int
  | 4 => do
      match Γ.array with
      | some a =>
          let index ← expr Γ 1 .int
          let value ← expr Γ maxDepth .int
          return assignElement a index value
      | none => writeOf Γ .float
  | _ => do
      if Γ.calls then return callFill (← expr Γ 2 .int) else writeOf Γ .int

def block (most : Nat) (one : Draw Stmt) : Draw (List Stmt) := do
  let more ← below most
  replicate one (more + 1)

def stmt (Γ : Vocabulary) (most : Nat) : Nat → Draw Stmt
  | 0 => do simple Γ (← below 6)
  | depth + 1 => do
      let body := block most (stmt Γ most depth)
      match ← below 9 with
      | 6 =>
          let condition ← expr Γ 2 .bool
          let yes ← body
          if ← coin then return .ifElse .blank condition yes (← body)
          else return .ifThen .blank condition yes
      | 7 =>
          let condition ← expr Γ 2 .bool
          return .while .blank condition (← body)
      | 8 =>
          let control ← oneOf? (Γ.names .int)
          let more ← below 3
          let range ← replicate (expr Γ 1 .int) (more + 1)
          return .for .blank (ident (control.getD "n")) range (← body)
      | k => simple Γ k

def parameter (x : String) (spec : TypeSpec) : Parameter := ⟨ident x, note spec⟩

def declaration (xs : List String) (spec : TypeSpec) : Declaration := ⟨xs.map ident, note spec⟩

def scaleHead : Function where
  mark := .blank
  name := ident "scale"
  params := [parameter "n" (.base .int), parameter "x" (.base .float)]
  result := some (note (.base .float))
  declarations := [declaration ["t"] (.base .float)]
  body := []

def fillHead : Function where
  mark := .blank
  name := ident "fill"
  params := [parameter "v" intArray, parameter "n" (.base .int)]
  result := none
  declarations := [declaration ["j"] (.base .int)]
  body := []

def mainHead : Function where
  mark := .blank
  name := ident "main"
  params := []
  result := none
  declarations := [
    declaration ["i0", "i1", "k"] (.base .int),
    declaration ["f0"] (.base .float),
    declaration ["b0"] (.base .bool),
    declaration ["c0"] (.base .char),
    declaration ["a0"] intArray]
  body := []

def scale (most : Nat) : Draw Function := do
  let first ← expr scaleNames maxDepth .float
  let stmts ← block most (stmt scaleNames most 1)
  let value ← expr scaleNames maxDepth .float
  return { scaleHead with body := assign "t" first :: stmts ++ [.ret .blank (some value)] }

def fill (most : Nat) : Draw Function := do
  let value ← expr fillNames maxDepth .int
  let stmts ← block most (stmt fillNames most 1)
  let elements : Stmt := .for .blank (ident "j") [.literal .blank (.int arraySize)]
    [assignElement "v" (nameExpr "j") value]
  return { fillHead with body := elements :: stmts }

def entry (most : Nat) : Draw Function := do
  let value ← expr mainNames 1 .int
  let argument ← expr mainNames maxDepth .int
  let stmts ← block most (stmt mainNames most 2)
  return { mainHead with body := assign "i0" value :: callFill argument :: stmts }

/-- A program of a size, which bounds the lengths of its blocks; it counts from one to six. -/
def program (size : Nat) : Draw Program := do
  let most := max 1 (min size 6)
  let f ← scale most
  let g ← fill most
  let h ← entry most
  return ⟨0, [f, g, h]⟩

def text (size : Nat) (tape : List UInt8) : String :=
  ((program size).run (.ofTape tape)).1.text

end Asl.Sample
