/-!
# Glyphs

A raw text, as it stands between quotes, is a list of glyphs: characters, each by its own raw text,
and line feeds.
-/
namespace Asl

inductive Glyph
  | char (raw : String)
  | line

namespace Glyph

/-- The glyphs of a raw text. A backslash joins the character after it where the two are an escape,
and stands for itself elsewhere. -/
def ofText : List Char → List Glyph
  | [] => []
  | '\\' :: 'n' :: cs => .line :: ofText cs
  | '\\' :: 't' :: cs => .char "\\t" :: ofText cs
  | '\\' :: '"' :: cs => .char "\\\"" :: ofText cs
  | '\\' :: '\\' :: cs => .char "\\\\" :: ofText cs
  | c :: cs => .char c.toString :: ofText cs

end Glyph

end Asl
