import Asl.Proofs.Code.Paths
import Asl.Proofs.Code.Texts
import Asl.Proofs.Lowering.Constants
import Asl.Proofs.Token.Numerals

/-!
# Reading code back

A line of a listing is read back word by word: a mnemonic says how many operands stand behind it and
what they are. Only the raw text of a character may have a blank in it, and it is the last operand
of its line. So a line tells the instruction, if the names in it are identifiers and the constants
can be written.
-/
namespace Asl

def readNumber (w : List Char) : Nat := Nat.ofDigitChars 10 w 0

theorem readNumber_repr (n : Nat) : readNumber n.repr.toList = n := by
  rw [Nat.repr_eq_ofList_toDigits, String.toList_ofList]
  exact Decimal.ofDigitChars_toDigits n

/-- A text with neither blanks nor line feeds. -/
def Solid (x : String) : Prop := ∀ c ∈ x.toList, c ≠ ' ' ∧ c ≠ '\n'

instance : DecidablePred Solid := fun x =>
  List.decidableBAll (fun c => c ≠ ' ' ∧ c ≠ '\n') x.toList

namespace Solid

variable {x y : String}

theorem no_blank (h : Solid x) : ' ' ∉ x.toList := fun hmem => (h ' ' hmem).1 rfl

theorem no_line_feed (h : Solid x) : '\n' ∉ x.toList := fun hmem => (h '\n' hmem).2 rfl

theorem append (hx : Solid x) (hy : Solid y) : Solid (x ++ y) := by
  intro c hc
  rw [String.toList_append] at hc
  exact (List.mem_append.1 hc).elim (hx c) (hy c)

theorem of_digits (h : ∀ c ∈ x.toList, c.isDigit = true) : Solid x := by
  intro c hc
  have hdigit := h c hc
  refine ⟨?_, ?_⟩ <;> rintro rfl <;> revert hdigit <;> decide

theorem repr (n : Nat) : Solid n.repr := of_digits fun _ hc => isDigit_of_mem_repr hc

theorem of_isIdentifier (h : isIdentifier x = true) : Solid x := by
  obtain ⟨c, cs, hx, hc, hcs⟩ := exists_of_isIdentifier h
  have hall : ∀ d ∈ x.toList, isWordChar d = true := by
    rw [hx]
    exact List.forall_mem_cons.2 ⟨by simp [isWordChar, hc], hcs⟩
  intro d hd
  have hword := hall d hd
  refine ⟨?_, ?_⟩ <;> rintro rfl <;> revert hword <;> decide

end Solid

def Operand.Named : Operand → Prop
  | .name x => isIdentifier x = true
  | _ => True

namespace Operand

def ofText (x : String) : Operand :=
  if x = resultName then .result
  else
    match x.toList with
    | '%' :: 't' :: digits => .temp (readNumber digits)
    | _ => .name x

theorem ofText_text {o : Operand} (h : o.Named) : ofText o.text = o := by
  cases o with
  | temp n =>
    rw [ofText, if_neg (text_temp_ne_resultName n), toList_text_temp]
    exact congrArg temp (readNumber_repr n)
  | name x =>
    have hhead := head?_of_isIdentifier h
    rw [ofText, text, if_neg (ne_resultName_of_isIdentifier h)]
    split
    · rename_i hx
      rw [hx] at hhead
      exact absurd rfl hhead
    · rfl
  | result => rfl

theorem solid_text {o : Operand} (h : o.Named) : Solid o.text := by
  cases o with
  | temp n => exact Solid.append (by decide) (.repr n)
  | name x => exact .of_isIdentifier h
  | result => decide

end Operand

namespace LabelKind

def all : List LabelKind :=
  [.else, .endif, .endmax, .while, .endwhile, .for, .endfor, .forDown, .forTest]

def ofText? (w : List Char) : Option LabelKind := all.find? (·.text.toList = w)

theorem ofText?_text (k : LabelKind) : ofText? k.text.toList = some k := by
  cases k <;> decide

end LabelKind

namespace Label

def ofText? (x : String) : Option Label :=
  (LabelKind.ofText? (x.toList.takeWhile fun c => !c.isDigit)).map fun k =>
    ⟨k, readNumber (x.toList.dropWhile fun c => !c.isDigit)⟩

theorem ofText?_text (l : Label) : ofText? l.text = some l := by
  obtain ⟨k, n⟩ := l
  have htext : text ⟨k, n⟩ = k.text ++ n.repr := rfl
  have htake := takeWhile_append_repr k.text_no_digit n
  have hdrop : (k.text ++ n.repr).toList.dropWhile (fun c => !c.isDigit) = n.repr.toList := by
    have hsplit := List.takeWhile_append_dropWhile (p := fun c => !c.isDigit)
      (l := (k.text ++ n.repr).toList)
    rw [htake, String.toList_append] at hsplit
    rw [String.toList_append]
    exact List.append_cancel_left hsplit
  rw [ofText?, htext, htake, hdrop, LabelKind.ofText?_text, readNumber_repr]
  rfl

theorem solid_text (l : Label) : Solid l.text := by
  have hkind : Solid l.kind.text := by cases l.kind <;> decide
  exact hkind.append (.repr l.number)

end Label

theorem Binary64.solid_text (rank : Nat) : Solid (text (.finite false rank)) := by
  have htext : (text (.finite false rank)).toList =
      (decimal rank).parts.1 ++ '.' :: (decimal rank).parts.2 := String.toList_ofList
  obtain ⟨-, -, hwhole, hfraction⟩ := (decimal rank).parts_digits
  have hsolid {c : Char} (hc : isDigit c = true) : c ≠ ' ' ∧ c ≠ '\n' := by
    refine ⟨?_, ?_⟩ <;> rintro rfl <;> revert hc <;> decide
  intro c hc
  rw [htext, List.mem_append, List.mem_cons] at hc
  rcases hc with hc | rfl | hc
  · exact hsolid (hwhole c hc)
  · decide
  · exact hsolid (hfraction c hc)

theorem Constant.text_int {n : Int} (h : 0 ≤ n) : (Constant.int n).text = n.toNat.repr := by
  obtain ⟨k, rfl⟩ := Int.eq_ofNat_of_zero_le h
  rfl

namespace BinaryInstr

def all : List BinaryInstr :=
  [.add .whole, .add .float, .sub .whole, .sub .float, .mul .whole, .mul .float, .div .whole,
    .div .float, .equal .whole, .equal .float, .less .whole, .less .float, .lessEqual .whole,
    .lessEqual .float, .and, .or]

def ofMnemonic? (m : String) : Option BinaryInstr := all.find? (·.mnemonic = m)

theorem solid_mnemonic (op : BinaryInstr) : Solid op.mnemonic := by
  rcases op with (_ | _) | (_ | _) | (_ | _) | (_ | _) | (_ | _) | (_ | _) | (_ | _) | _ | _ <;>
    decide

end BinaryInstr

namespace UnaryInstr

def all : List UnaryInstr := [.negate .whole, .negate .float, .not, .toFloat]

def ofMnemonic? (m : String) : Option UnaryInstr := all.find? (·.mnemonic = m)

theorem solid_mnemonic (op : UnaryInstr) : Solid op.mnemonic := by
  rcases op with (_ | _) | _ | _ <;> decide

end UnaryInstr

def words (line : List Char) : List String := (line.splitOn ' ').map String.ofList

theorem words_intercalate {ws : List String} (h : ∀ w ∈ ws, Solid w) (hne : ws ≠ []) :
    words ([' '].intercalate (ws.map String.toList)) = ws := by
  have hno : ∀ l ∈ ws.map String.toList, ' ' ∉ l := fun l hl => by
    obtain ⟨w, hw, rfl⟩ := List.mem_map.1 hl
    exact (h w hw).no_blank
  rw [words, List.splitOn_intercalate ' ' hno (by simpa using hne), List.map_map]
  exact List.map_id'' (fun w => String.ofList_toList) ws

namespace Instr

structure Legible (i : Instr) : Prop where
  named : ∀ q ∈ i.uses, q.2.Named
  callee : ∀ name, i = .call name → isIdentifier name = true
  plain : i.Plain

def ofWords? : List String → Option Instr
  | ["ILOAD", dst, n] => some (.constant (.ofText dst) (.int (readNumber n.toList)))
  | ["FLOAD", dst, x] =>
      some (.constant (.ofText dst) (.float (Binary64.ofDecimal false (decimalOf x.toList))))
  | "CHLOAD" :: dst :: raw => some (.constant (.ofText dst) (.char (" ".intercalate raw)))
  | ["LOAD", dst, src] => some (.copy (.ofText dst) (.ofText src))
  | ["LOADX", dst, base, index] =>
      some (.loadElement (.ofText dst) (.ofText base) (.ofText index))
  | ["XLOAD", base, index, src] =>
      some (.storeElement (.ofText base) (.ofText index) (.ofText src))
  | ["ALOAD", dst, array] => some (.address (.ofText dst) (.ofText array))
  | ["PUSH"] => some (.push none)
  | ["PUSH", src] => some (.push (some (.ofText src)))
  | ["POP"] => some (.pop none)
  | ["POP", dst] => some (.pop (some (.ofText dst)))
  | ["CALL", name] => some (.call name)
  | ["RETURN"] => some .ret
  | ["READI", dst] => some (.read .int (.ofText dst))
  | ["READF", dst] => some (.read .float (.ofText dst))
  | ["READC", dst] => some (.read .char (.ofText dst))
  | ["WRITEI", src] => some (.write .int (.ofText src))
  | ["WRITEF", src] => some (.write .float (.ofText src))
  | ["WRITEC", src] => some (.write .char (.ofText src))
  | ["WRITELN"] => some .writeLine
  | ["UJUMP", target] => (Label.ofText? target).map .jump
  | ["FJUMP", condition, target] =>
      (Label.ofText? target).map (Instr.jumpUnless (.ofText condition))
  | ["LABEL", l] => (Label.ofText? l).map .label
  | [m, dst, src] => (UnaryInstr.ofMnemonic? m).map (.unary · (.ofText dst) (.ofText src))
  | [m, dst, lhs, rhs] =>
      (BinaryInstr.ofMnemonic? m).map (.binary · (.ofText dst) (.ofText lhs) (.ofText rhs))
  | _ => none

def ofLine? (line : List Char) : Option Instr := ofWords? (words line)

theorem toList_text (i : Instr) :
    i.text.toList = [' '].intercalate ((i.mnemonic :: i.operands).map String.toList) := by
  have hjoin (m : String) (ops : List String) :
      m.toList ++ (ops.map (" " ++ ·)).flatMap String.toList =
      [' '].intercalate ((m :: ops).map String.toList) := by
    induction ops generalizing m with
    | nil => simp [List.intercalate]
    | cons o ops ih =>
      rw [List.map_cons, List.flatMap_cons, String.toList_append, List.append_assoc, ih o,
        List.map_cons, List.map_cons, List.map_cons, List.intercalate_cons_cons, List.append_assoc]
      rfl
  rw [text, String.toList_join, List.flatMap_cons]
  exact hjoin _ _

theorem solid_mnemonic (i : Instr) : Solid i.mnemonic := by
  cases i with
  | binary op => exact op.solid_mnemonic
  | unary op => exact op.solid_mnemonic
  | constant o value => cases value <;> (rw [mnemonic]; decide)
  | read c => cases c <;> (rw [mnemonic]; decide)
  | write c => cases c <;> (rw [mnemonic]; decide)
  | _ => rw [mnemonic]; decide

theorem ofWords?_binary (op : BinaryInstr) (dst lhs rhs : String) :
    ofWords? [op.mnemonic, dst, lhs, rhs] =
      some (.binary op (.ofText dst) (.ofText lhs) (.ofText rhs)) := by
  rcases op with (_ | _) | (_ | _) | (_ | _) | (_ | _) | (_ | _) | (_ | _) | (_ | _) | _ | _ <;> rfl

theorem ofWords?_unary (op : UnaryInstr) (dst src : String) :
    ofWords? [op.mnemonic, dst, src] = some (.unary op (.ofText dst) (.ofText src)) := by
  rcases op with (_ | _) | _ | _ <;> rfl

theorem words_text_char {dst : Operand} (hdst : dst.Named) (raw : String) :
    words (Instr.constant dst (.char raw)).text.toList =
      "CHLOAD" :: dst.text :: (raw.toList.splitOn ' ').map String.ofList := by
  have htext : (Instr.constant dst (.char raw)).text.toList =
      "CHLOAD".toList ++ ' ' :: (dst.text.toList ++ ' ' :: raw.toList) := by
    rw [toList_text]
    simp [mnemonic, operands, Constant.text, List.intercalate]
  rw [htext, words, List.splitOn_append_cons_self_of_not_mem (by decide),
    List.splitOn_append_cons_self_of_not_mem (Operand.solid_text hdst).no_blank, List.map_cons,
    List.map_cons, String.ofList_toList, String.ofList_toList]

namespace Legible

variable {i : Instr}

theorem solid_operands (h : i.Legible) (hchar : ∀ dst raw, i ≠ .constant dst (.char raw)) :
    ∀ x ∈ i.operands, Solid x := by
  have hnamed : ∀ q ∈ i.uses, Solid q.2.text := fun q hq => Operand.solid_text (h.named q hq)
  cases i with
  | constant dst value =>
    cases value with
    | int n =>
      refine List.forall_mem_cons.2 ⟨hnamed _ List.mem_cons_self, List.forall_mem_singleton.2 ?_⟩
      rw [Constant.text_int h.plain]
      exact .repr _
    | float x =>
      obtain ⟨rank, -, rfl⟩ := h.plain
      exact List.forall_mem_cons.2 ⟨hnamed _ List.mem_cons_self,
        List.forall_mem_singleton.2 (Binary64.solid_text rank)⟩
    | char raw => exact absurd rfl (hchar dst raw)
  | push src | pop src =>
    cases src with
    | none => simp [operands]
    | some src => simpa [uses, operands] using hnamed
  | ret | writeLine => simp [operands]
  | call name => exact List.forall_mem_singleton.2 (.of_isIdentifier (h.callee name rfl))
  | jump target => exact List.forall_mem_singleton.2 target.solid_text
  | jumpUnless condition target =>
    exact List.forall_mem_cons.2 ⟨hnamed _ List.mem_cons_self,
      List.forall_mem_singleton.2 target.solid_text⟩
  | label l => exact List.forall_mem_singleton.2 l.solid_text
  | _ => simpa [uses, operands] using hnamed

theorem ofWords?_eq (h : i.Legible) (hchar : ∀ dst raw, i ≠ .constant dst (.char raw)) :
    ofWords? (i.mnemonic :: i.operands) = some i := by
  have hread : ∀ q ∈ i.uses, Operand.ofText q.2.text = q.2 := fun q hq =>
    Operand.ofText_text (h.named q hq)
  cases i with
  | binary op dst lhs rhs =>
    simp only [uses, List.forall_mem_cons] at hread
    refine (ofWords?_binary op _ _ _).trans ?_
    rw [hread.1, hread.2.1, hread.2.2.1]
  | unary op dst src =>
    simp only [uses, List.forall_mem_cons] at hread
    refine (ofWords?_unary op _ _).trans ?_
    rw [hread.1, hread.2.1]
  | constant dst value =>
    have hdst : Operand.ofText dst.text = dst := hread _ List.mem_cons_self
    cases value with
    | int n =>
      have hn : 0 ≤ n := h.plain
      change some (Instr.constant (.ofText dst.text) (.int (readNumber _))) = _
      rw [hdst, Constant.text_int hn, readNumber_repr, Int.toNat_of_nonneg hn]
    | float x =>
      obtain ⟨rank, hrank, rfl⟩ := h.plain
      change some (Instr.constant (.ofText dst.text) (.float (Binary64.ofDecimal false
        (decimalOf (Binary64.text _).toList)))) = _
      rw [hdst, Binary64.ofDecimal_text hrank]
    | char raw => exact absurd rfl (hchar dst raw)
  | copy dst src =>
    simp only [uses, List.forall_mem_cons] at hread
    change some (Instr.copy (.ofText dst.text) (.ofText src.text)) = _
    rw [hread.1, hread.2.1]
  | loadElement dst base index =>
    simp only [uses, List.forall_mem_cons] at hread
    change some (Instr.loadElement (.ofText dst.text) (.ofText base.text) (.ofText index.text)) = _
    rw [hread.1, hread.2.1, hread.2.2.1]
  | storeElement base index src =>
    simp only [uses, List.forall_mem_cons] at hread
    change some (Instr.storeElement (.ofText base.text) (.ofText index.text) (.ofText src.text)) = _
    rw [hread.1, hread.2.1, hread.2.2.1]
  | address dst array =>
    simp only [uses, List.forall_mem_cons] at hread
    change some (Instr.address (.ofText dst.text) (.ofText array.text)) = _
    rw [hread.1, hread.2.1]
  | push src =>
    cases src with
    | none => rfl
    | some src => exact congrArg (fun o => some (Instr.push (some o))) (hread _ List.mem_cons_self)
  | pop dst =>
    cases dst with
    | none => rfl
    | some dst => exact congrArg (fun o => some (Instr.pop (some o))) (hread _ List.mem_cons_self)
  | call | ret | writeLine => rfl
  | read c dst =>
    have hdst := congrArg (fun o => some (Instr.read c o)) (hread _ List.mem_cons_self)
    cases c <;> exact hdst
  | write c src =>
    have hsrc := congrArg (fun o => some (Instr.write c o)) (hread _ List.mem_cons_self)
    cases c <;> exact hsrc
  | jump target =>
    change (Label.ofText? target.text).map Instr.jump = _
    rw [target.ofText?_text]
    rfl
  | jumpUnless condition target =>
    change (Label.ofText? target.text).map (Instr.jumpUnless (.ofText condition.text)) = _
    rw [target.ofText?_text, hread _ List.mem_cons_self]
    rfl
  | label l =>
    change (Label.ofText? l.text).map Instr.label = _
    rw [l.ofText?_text]
    rfl

theorem ofLine?_text (h : i.Legible) : ofLine? i.text.toList = some i := by
  by_cases hchar : ∃ dst raw, i = .constant dst (.char raw)
  · obtain ⟨dst, raw, rfl⟩ := hchar
    have hdst : dst.Named := h.named _ List.mem_cons_self
    have hraw : " ".intercalate ((raw.toList.splitOn ' ').map String.ofList) = raw := by
      refine String.toList_injective ?_
      rw [String.toList_intercalate, List.map_map]
      simp only [Function.comp_def, String.toList_ofList, List.map_id']
      exact List.intercalate_splitOn ' '
    rw [ofLine?, words_text_char hdst]
    change some (Instr.constant (.ofText dst.text) (.char (" ".intercalate _))) = _
    rw [hraw, Operand.ofText_text hdst]
  · simp only [not_exists] at hchar
    have hsolid : ∀ w ∈ i.mnemonic :: i.operands, Solid w :=
      List.forall_mem_cons.2 ⟨i.solid_mnemonic, h.solid_operands hchar⟩
    rw [ofLine?, toList_text, words_intercalate hsolid (List.cons_ne_nil _ _), h.ofWords?_eq hchar]

theorem no_line_feed (h : i.Legible) : '\n' ∉ i.text.toList := by
  have hoperands : ∀ x ∈ i.operands, '\n' ∉ x.toList := by
    by_cases hchar : ∃ dst raw, i = .constant dst (.char raw)
    · obtain ⟨dst, raw, rfl⟩ := hchar
      have hdst := Operand.solid_text (h.named _ List.mem_cons_self)
      exact List.forall_mem_cons.2 ⟨hdst.no_line_feed, List.forall_mem_singleton.2 h.plain⟩
    · simp only [not_exists] at hchar
      exact fun x hx => (h.solid_operands hchar x hx).no_line_feed
  rw [text, String.toList_join, List.flatMap_cons, List.mem_append, not_or]
  refine ⟨i.solid_mnemonic.no_line_feed, fun hmem => ?_⟩
  obtain ⟨w, hw, hline⟩ := List.mem_flatMap.1 hmem
  obtain ⟨x, hx, rfl⟩ := List.mem_map.1 hw
  rw [String.toList_append] at hline
  rcases List.mem_append.1 hline with hblank | hline
  · exact absurd hblank (by decide)
  · exact hoperands x hx hline

end Legible

end Instr

end Asl
