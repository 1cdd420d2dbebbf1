import Asl.Code.Basic
import Asl.Binary64.Text

/-!
# Listings

A listing writes a subroutine as a header, its parameters, its variables with the cells that they
take, and one line for every instruction: a mnemonic and its operands between spaces. Subroutines
have an empty line between them.
-/
namespace Asl

/-- The name of the slot for the value of a function. -/
def resultName : String := "_result"

def Operand.text : Operand → String
  | .temp n => "%t" ++ toString n
  | .name x => x
  | .result => resultName

def LabelKind.text : LabelKind → String
  | .else => "else"
  | .endif => "endif"
  | .endmax => "endmax"
  | .while => "while"
  | .endwhile => "endwhile"
  | .for => "for"
  | .endfor => "endfor"
  | .forDown => "fordown"
  | .forTest => "fortest"

def Label.text (l : Label) : String := l.kind.text ++ toString l.number

def Constant.text : Constant → String
  | .int n => toString n
  | .float x => x.text
  | .char raw => raw

def BinaryInstr.mnemonic : BinaryInstr → String
  | .add .whole => "ADD"
  | .add .float => "FADD"
  | .sub .whole => "SUB"
  | .sub .float => "FSUB"
  | .mul .whole => "MUL"
  | .mul .float => "FMUL"
  | .div .whole => "DIV"
  | .div .float => "FDIV"
  | .equal .whole => "EQ"
  | .equal .float => "FEQ"
  | .less .whole => "LT"
  | .less .float => "FLT"
  | .lessEqual .whole => "LE"
  | .lessEqual .float => "FLE"
  | .and => "AND"
  | .or => "OR"

def UnaryInstr.mnemonic : UnaryInstr → String
  | .negate .whole => "NEG"
  | .negate .float => "FNEG"
  | .not => "NOT"
  | .toFloat => "FLOAT"

namespace Instr

def mnemonic : Instr → String
  | .binary op _ _ _ => op.mnemonic
  | .unary op _ _ => op.mnemonic
  | .constant _ (.int _) => "ILOAD"
  | .constant _ (.float _) => "FLOAD"
  | .constant _ (.char _) => "CHLOAD"
  | .copy _ _ => "LOAD"
  | .loadElement _ _ _ => "LOADX"
  | .storeElement _ _ _ => "XLOAD"
  | .address _ _ => "ALOAD"
  | .push _ => "PUSH"
  | .pop _ => "POP"
  | .call _ => "CALL"
  | .ret => "RETURN"
  | .read .int _ => "READI"
  | .read .float _ => "READF"
  | .read .char _ => "READC"
  | .write .int _ => "WRITEI"
  | .write .float _ => "WRITEF"
  | .write .char _ => "WRITEC"
  | .writeLine => "WRITELN"
  | .jump _ => "UJUMP"
  | .jumpUnless _ _ => "FJUMP"
  | .label _ => "LABEL"

def operands : Instr → List String
  | .binary _ dst lhs rhs => [dst.text, lhs.text, rhs.text]
  | .unary _ dst src => [dst.text, src.text]
  | .constant dst value => [dst.text, value.text]
  | .copy dst src => [dst.text, src.text]
  | .loadElement dst base index => [dst.text, base.text, index.text]
  | .storeElement base index src => [base.text, index.text, src.text]
  | .address dst array => [dst.text, array.text]
  | .push src => (src.map Operand.text).toList
  | .pop dst => (dst.map Operand.text).toList
  | .call name => [name]
  | .ret => []
  | .read _ dst => [dst.text]
  | .write _ src => [src.text]
  | .writeLine => []
  | .jump target => [target.text]
  | .jumpUnless condition target => [condition.text, target.text]
  | .label l => [l.text]

def text (i : Instr) : String := String.join (i.mnemonic :: i.operands.map (" " ++ ·))

end Instr

namespace Subroutine

def lines (s : Subroutine) : List String :=
  ["function " ++ s.name, "  params"] ++
    s.params.map ("    " ++ ·) ++
    ["  endparams", "  vars"] ++
    s.locals.map (fun v => "    " ++ v.name ++ " " ++ toString v.cells) ++
    ["  endvars"] ++
    s.code.map (fun i => "    " ++ i.text) ++
    ["endfunction"]

def text (s : Subroutine) : String := String.join (s.lines.map (· ++ "\n"))

end Subroutine

def Assembly.text (a : Assembly) : String := "\n".intercalate (a.subroutines.map Subroutine.text)

end Asl
