import Asl.Code.Lowering
import Asl.Text.Glyph

/-!
# Glyphs of a text

A raw text is written glyph by glyph: a character, by its own raw text, or a line feed. The code
that writes a text is the code of its glyphs, one behind the other.
-/
namespace Asl

def Glyph.code (t : Operand) : Glyph → Code
  | .char raw => [.constant t (.char raw), .write .char t]
  | .line => [.writeLine]

theorem Lower.writeChars_eq (t : Operand) (cs : List Char) :
    writeChars t cs = (Glyph.ofText cs).flatMap (Glyph.code t) := by
  fun_induction Glyph.ofText cs with
  | case1 => rfl
  | case2 cs ih => simp only [writeChars, ih, List.flatMap_cons, Glyph.code, List.cons_append,
      List.nil_append]
  | case3 cs ih => simp only [writeChars, ih, List.flatMap_cons, Glyph.code, List.cons_append,
      List.nil_append]
  | case4 cs ih => simp only [writeChars, ih, List.flatMap_cons, Glyph.code, List.cons_append,
      List.nil_append]
  | case5 cs ih => simp only [writeChars, ih, List.flatMap_cons, Glyph.code, List.cons_append,
      List.nil_append]
  | case6 c cs hn ht hq hb ih =>
    rw [writeChars, ih, List.flatMap_cons, Glyph.code, List.cons_append, List.cons_append,
      List.nil_append]
    · exact hn
    · exact ht
    · exact hq
    · exact hb

end Asl
