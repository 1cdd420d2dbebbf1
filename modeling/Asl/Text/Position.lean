/-!
# Places in a source text

An offset counts bytes of the UTF-8 encoding; a reader of a message wants a line and a column.
Both count from 1, and a column counts characters. An offset that is past the end, or that
falls inside a character, is read as the end of the text.
-/
namespace Asl.Text

def byteLength : List Char → Nat
  | [] => 0
  | c :: cs => c.utf8Size + byteLength cs

@[simp] theorem byteLength_nil : byteLength [] = 0 := rfl

@[simp] theorem byteLength_cons (c : Char) (cs : List Char) :
    byteLength (c :: cs) = c.utf8Size + byteLength cs := rfl

@[simp] theorem byteLength_append (cs ds : List Char) :
    byteLength (cs ++ ds) = byteLength cs + byteLength ds := by
  induction cs with
  | nil => simp
  | cons c cs ih => simp [ih, Nat.add_assoc]

/-- The characters before an offset, if the offset is a boundary of the text. -/
def upTo? : List Char → Nat → Option (List Char)
  | _, 0 => some []
  | [], _ + 1 => none
  | c :: cs, n + 1 =>
      if c.utf8Size ≤ n + 1 then (upTo? cs (n + 1 - c.utf8Size)).map (c :: ·) else none

theorem upTo?_eq_some {cs front : List Char} {n : Nat} (h : upTo? cs n = some front) :
    byteLength front = n ∧ ∃ back, cs = front ++ back := by
  induction cs generalizing n front with
  | nil =>
    cases n with
    | zero =>
      cases h
      exact ⟨rfl, [], rfl⟩
    | succ n => cases h
  | cons c cs ih =>
    cases n with
    | zero =>
      cases h
      exact ⟨rfl, c :: cs, rfl⟩
    | succ n =>
      simp only [upTo?] at h
      split at h
      · rename_i hc
        obtain ⟨rest, hrest, rfl⟩ := Option.map_eq_some_iff.1 h
        obtain ⟨hlen, back, rfl⟩ := ih hrest
        exact ⟨by simp only [byteLength_cons]; omega, back, rfl⟩
      · cases h

structure Position where
  line : Nat
  column : Nat
deriving DecidableEq, Repr

namespace Position

def first : Position := ⟨1, 1⟩

def next (p : Position) (c : Char) : Position :=
  if c = '\n' then ⟨p.line + 1, 1⟩ else ⟨p.line, p.column + 1⟩

def after (cs : List Char) : Position := cs.foldl next first

def ofOffset (source : String) (offset : Nat) : Position :=
  after ((upTo? source.toList offset).getD source.toList)

def text (p : Position) : String := toString p.line ++ ":" ++ toString p.column

end Position

end Asl.Text
