import Asl.Proofs.Lowering.Text
import Mathlib.Algebra.Ring.Parity
import Mathlib.Data.List.Induction

/-!
# Escapes of a written text

The code that writes a raw text can be read back: a line feed as its escape, any other glyph as the
raw text that is written for it. The text is cut into glyphs from the left: behind an even number of
backslashes, a backslash takes the character that follows it exactly where the two are an escape.
So the cuts are known from the text alone, by counting the backslashes before each place.
-/
namespace Asl

namespace Glyph

/-- The characters that make an escape with a backslash before them. -/
def escaped : List Char := ['n', 't', '"', '\\']

def source : Glyph → List Char
  | .char raw => raw.toList
  | .line => ['\\', 'n']

/-- A line feed, a character by itself, or the escape of a character other than the line feed. -/
inductive Formed : Glyph → Prop
  | line : Formed .line
  | single (c : Char) : Formed (.char c.toString)
  | escape {e : Char} (h : e ∈ ['t', '"', '\\']) : Formed (.char (String.ofList ['\\', e]))

/-- Reads back the text of code that writes line feeds and, through one temporary, characters. -/
def readBack? (t : Operand) : Code → Option (List Char)
  | [] => some []
  | .writeLine :: code => (readBack? t code).map (['\\', 'n'] ++ ·)
  | .constant u (.char raw) :: .write .char v :: code =>
      if u = t ∧ v = t then (readBack? t code).map (raw.toList ++ ·) else none
  | _ => none

theorem readBack?_code (t : Operand) (g : Glyph) (code : Code) :
    readBack? t (g.code t ++ code) = (readBack? t code).map (g.source ++ ·) := by
  cases g with
  | line => rfl
  | char raw => exact if_pos ⟨rfl, rfl⟩

theorem readBack?_flatMap (t : Operand) (gs : List Glyph) :
    readBack? t (gs.flatMap (code t)) = some (gs.flatMap source) := by
  induction gs with
  | nil => rfl
  | cons g gs ih => rw [List.flatMap_cons, readBack?_code, ih, Option.map_some, List.flatMap_cons]

/-- Induction along the glyphs of a text: at its front there is an escape, or a character that
begins none. -/
theorem ofText_ind {motive : List Char → Prop} (nil : motive [])
    (joined : ∀ e cs g, e ∈ escaped → g.source = ['\\', e] → g.Formed →
      ofText ('\\' :: e :: cs) = g :: ofText cs → motive cs → motive ('\\' :: e :: cs))
    (single : ∀ c cs, (c = '\\' → ∀ e ∈ cs.head?, e ∉ escaped) →
      ofText (c :: cs) = .char c.toString :: ofText cs → motive cs → motive (c :: cs))
    (cs : List Char) : motive cs := by
  fun_induction ofText cs with
  | case1 => exact nil
  | case2 cs ih => exact joined 'n' cs _ (by decide) rfl .line rfl ih
  | case3 cs ih => exact joined 't' cs _ (by decide) rfl (.escape (e := 't') (by decide)) rfl ih
  | case4 cs ih => exact joined '"' cs _ (by decide) rfl (.escape (e := '"') (by decide)) rfl ih
  | case5 cs ih => exact joined '\\' cs _ (by decide) rfl (.escape (e := '\\') (by decide)) rfl ih
  | case6 c cs hn ht hq hb ih =>
    refine single c cs (fun hc e he hmem => ?_) (by rw [ofText] <;> assumption) ih
    obtain ⟨cs, rfl⟩ := List.head?_eq_some_iff.1 he
    simp only [escaped, List.mem_cons, List.not_mem_nil, or_false] at hmem
    rcases hmem with rfl | rfl | rfl | rfl
    · exact hn cs hc rfl
    · exact ht cs hc rfl
    · exact hq cs hc rfl
    · exact hb cs hc rfl

@[simp] theorem source_single (c : Char) : source (.char c.toString) = [c] := by simp [source]

theorem flatMap_ofText (cs : List Char) : (ofText cs).flatMap source = cs := by
  induction cs using ofText_ind with
  | nil => rfl
  | joined e cs g he hg hformed heq ih =>
    rw [heq, List.flatMap_cons, hg, ih, List.cons_append, List.singleton_append]
  | single c cs hlone heq ih =>
    rw [heq, List.flatMap_cons, source_single, ih, List.singleton_append]

theorem formed_of_mem (cs : List Char) : ∀ g ∈ ofText cs, g.Formed := by
  induction cs using ofText_ind with
  | nil => exact fun _ h => nomatch h
  | joined e cs g he hg hformed heq ih =>
    rw [heq]
    exact List.forall_mem_cons.2 ⟨hformed, ih⟩
  | single c cs hlone heq ih =>
    rw [heq]
    exact List.forall_mem_cons.2 ⟨.single c, ih⟩

/-- Glyphs cut their text between two parts of it. -/
def Cuts (gs : List Glyph) (l r : List Char) : Prop :=
  ∃ front back, gs = front ++ back ∧ front.flatMap source = l ∧ back.flatMap source = r

theorem cuts_front (cs : List Char) : Cuts (ofText cs) [] cs :=
  ⟨[], ofText cs, rfl, rfl, flatMap_ofText cs⟩

theorem cuts_cons {g : Glyph} {gs : List Glyph} {l r : List Char} (hl : l ≠ []) :
    Cuts (g :: gs) l r ↔ ∃ l', l = g.source ++ l' ∧ Cuts gs l' r := by
  constructor
  · rintro ⟨front, back, hgs, rfl, rfl⟩
    cases front with
    | nil => exact absurd rfl hl
    | cons g' front =>
      obtain ⟨rfl, rfl⟩ := List.cons.inj hgs
      exact ⟨_, List.flatMap_cons, front, back, rfl, rfl, rfl⟩
  · rintro ⟨_, rfl, front, back, rfl, rfl, rfl⟩
    exact ⟨g :: front, back, rfl, List.flatMap_cons, rfl⟩

def endSlashes (cs : List Char) : Nat := (cs.reverse.takeWhile (· = '\\')).length

def countSlash (n : Nat) (c : Char) : Nat := if c = '\\' then n + 1 else 0

theorem endSlashes_eq (cs : List Char) : endSlashes cs = cs.foldl countSlash 0 := by
  induction cs using List.reverseRecOn with
  | nil => rfl
  | append_singleton cs c ih =>
    rw [List.foldl_append, ← ih]
    by_cases hc : c = '\\' <;> simp [endSlashes, countSlash, hc]

/-- A place inside of an escape: an odd number of backslashes stands before it, and behind it
a character that the last of them makes an escape with. -/
def Inside (slashes : Nat) (r : List Char) : Prop := Odd slashes ∧ ∃ e ∈ r.head?, e ∈ escaped

theorem not_inside_of_even {n : Nat} (hn : Even n) (r : List Char) : ¬ Inside n r :=
  fun h => Nat.not_even_iff_odd.2 h.1 hn

/-- Behind an even number of backslashes, a text is cut wherever it is not inside of an escape. -/
theorem cuts_ofText_iff {n : Nat} (hn : Even n) (l r : List Char) :
    Cuts (ofText (l ++ r)) l r ↔ ¬ Inside (l.foldl countSlash n) r := by
  generalize hcs : l ++ r = cs
  induction cs using ofText_ind generalizing n l with
  | nil =>
    obtain ⟨rfl, rfl⟩ := List.append_eq_nil_iff.1 hcs
    exact iff_of_true (cuts_front []) (not_inside_of_even hn [])
  | joined e cs g he hg hformed heq ih =>
    match l with
    | [] =>
      subst hcs
      exact iff_of_true (cuts_front _) (not_inside_of_even hn _)
    | [a] =>
      -- The place between a backslash and the character that it takes.
      obtain ⟨rfl, rfl⟩ := List.cons.inj hcs
      have hodd : Odd (countSlash n '\\') := hn.add_one
      refine iff_of_false ?_ (not_not_intro ⟨hodd, e, rfl, he⟩)
      rw [heq, cuts_cons (List.cons_ne_nil _ _), hg]
      rintro ⟨l', hl', -⟩
      cases hl'
    | a :: b :: l =>
      injection hcs with ha htail
      injection htail with hb htail
      subst ha hb
      have heven : Even (countSlash (countSlash n '\\') b) := by
        by_cases hb : b = '\\'
        · subst hb
          exact hn.add_one.add_one
        · rw [countSlash, if_neg hb]
          exact .zero
      rw [heq, cuts_cons (List.cons_ne_nil _ _), hg, List.foldl_cons, List.foldl_cons,
        ← ih heven l htail]
      constructor
      · rintro ⟨l', hl', h⟩
        cases hl'
        exact h
      · exact fun h => ⟨l, rfl, h⟩
  | single c cs hlone heq ih =>
    match l with
    | [] =>
      subst hcs
      exact iff_of_true (cuts_front _) (not_inside_of_even hn _)
    | a :: l =>
      obtain ⟨rfl, htail⟩ := List.cons.inj hcs
      have hcuts : Cuts (ofText (a :: cs)) (a :: l) r ↔ Cuts (ofText cs) l r := by
        rw [heq, cuts_cons (List.cons_ne_nil _ _), source_single]
        constructor
        · rintro ⟨l', hl', h⟩
          cases hl'
          exact h
        · exact fun h => ⟨l, rfl, h⟩
      rw [hcuts, List.foldl_cons]
      by_cases ha : a = '\\'
      · -- A backslash that takes nothing is the last one of its run, which begins anew behind it.
        cases l with
        | nil =>
          subst htail
          exact iff_of_true (cuts_front _) fun ⟨_, e, he, hmem⟩ => hlone ha e he hmem
        | cons b l =>
          have hb : b ≠ '\\' := by
            rintro rfl
            exact hlone ha '\\' (by rw [← htail]; rfl) (by decide)
          rw [ih .zero (b :: l) htail, List.foldl_cons, List.foldl_cons, countSlash, if_neg hb,
            countSlash, if_neg hb]
      · rw [countSlash, if_neg ha]
        exact ih .zero l htail

/-- The cuts of a text are the places that are not inside of an escape. -/
theorem cuts_iff (l r : List Char) : Cuts (ofText (l ++ r)) l r ↔ ¬ Inside (endSlashes l) r := by
  rw [endSlashes_eq]
  exact cuts_ofText_iff .zero l r

/-- A backslash is a glyph by itself only where no escape begins. -/
theorem not_escaped_of_lone {cs : List Char} {front back : List Glyph}
    (h : ofText cs = front ++ .char "\\" :: back) :
    ∀ e ∈ (back.flatMap source).head?, e ∉ escaped := by
  set l := front.flatMap source
  set r := back.flatMap source
  have hback : (Glyph.char "\\" :: back).flatMap source = '\\' :: r := rfl
  have hfront : (front ++ [Glyph.char "\\"]).flatMap source = l ++ ['\\'] := List.flatMap_append
  have hcs : cs = l ++ '\\' :: r := by
    rw [← flatMap_ofText cs, h, List.flatMap_append, hback]
  have hbefore : Cuts (ofText (l ++ '\\' :: r)) l ('\\' :: r) := by
    rw [← hcs]
    exact ⟨front, _, h, rfl, hback⟩
  have hbehind : Cuts (ofText (l ++ ['\\'] ++ r)) (l ++ ['\\']) r := by
    rw [List.append_assoc, List.singleton_append, ← hcs]
    exact ⟨front ++ [.char "\\"], back, by rw [h, List.append_assoc]; rfl, hfront, rfl⟩
  have heven : ¬ Odd (endSlashes l) := fun hodd =>
    (cuts_iff _ _).1 hbefore ⟨hodd, '\\', rfl, by decide⟩
  have hodd : Odd (endSlashes (l ++ ['\\'])) := by
    rw [endSlashes_eq, List.foldl_append, ← endSlashes_eq]
    exact (Nat.not_odd_iff_even.1 heven).add_one
  exact fun e he hmem => (cuts_iff _ _).1 hbehind ⟨hodd, e, he, hmem⟩

/-- The code that writes a text consists of the codes of glyphs, all through one temporary, and is
read back as the text. A backslash is written by itself only where the text has no escape, and the
text is cut into its glyphs from the left, everywhere but inside of an escape. -/
theorem writeText_reads_back (Λ : Lowering) (m : Mark) (raw : String) (c : Counters) :
    ∃ gs : List Glyph, ∃ t : Operand, ∃ code : Code,
      (Lower.stmt Λ (.writeText m raw)).run c = (.ok code, { c with temps := c.temps + 1 }) ∧
      t = .temp (c.temps + 1) ∧ code = gs.flatMap (Glyph.code t) ∧ (∀ g ∈ gs, g.Formed) ∧
      readBack? t code = some raw.toList ∧
      (∀ front back, gs = front ++ .char "\\" :: back →
        ∀ e ∈ (back.flatMap source).head?, e ∉ escaped) ∧
      ∀ l r, raw.toList = l ++ r → (Cuts gs l r ↔ ¬ Inside (endSlashes l) r) := by
  refine ⟨ofText raw.toList, .temp (c.temps + 1), _, ?_, rfl, rfl, formed_of_mem _, ?_,
    fun front back => not_escaped_of_lone, fun l r hraw => ?_⟩
  · rw [Lower.stmt, ← Lower.writeChars_eq]
    rfl
  · rw [readBack?_flatMap, flatMap_ofText]
  · rw [hraw]
    exact cuts_iff l r

example : ofText ['\\', '\\', 'n', '\\', 'n', '\\'] =
    [.char "\\\\", .char "n", .line, .char "\\"] := rfl

end Glyph

end Asl
