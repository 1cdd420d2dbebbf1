import Asl.Proofs.Reporting
import Asl.Proofs.Source
import Asl.Proofs.Token.Lines
import Asl.Text.Position
import Mathlib.Data.Prod.Lex

/-!
# Positions

The boundaries of a text are the offsets at which a character begins or the text ends. Their
positions increase as they do, line before column, and from the position of a boundary the boundary
is found again in the lines of the text. All diagnostics of a source text are about nodes, which
begin and end where tokens do, so their offsets are boundaries.
-/
namespace Asl

namespace Text

/-- The offsets between two characters, and those of both ends. -/
def Boundary (cs : List Char) (n : Nat) : Prop :=
  ∃ front back, cs = front ++ back ∧ byteLength front = n

theorem upTo?_append (front back : List Char) :
    upTo? (front ++ back) (byteLength front) = some front := by
  induction front with
  | nil => cases back <;> rfl
  | cons c front ih =>
    obtain ⟨n, hn⟩ : ∃ n, byteLength (c :: front) = n + 1 :=
      Nat.exists_eq_succ_of_ne_zero (byteLength_pos (List.cons_ne_nil c front)).ne'
    have hsize : c.utf8Size + byteLength front = n + 1 := hn
    rw [hn, List.cons_append, upTo?, if_pos (by omega), ← hsize, Nat.add_sub_cancel_left, ih,
      Option.map_some]

theorem isSome_upTo?_iff {cs : List Char} {n : Nat} : (upTo? cs n).isSome ↔ Boundary cs n := by
  constructor
  · intro h
    obtain ⟨front, hfront⟩ := Option.isSome_iff_exists.1 h
    obtain ⟨hlength, back, hcs⟩ := upTo?_eq_some hfront
    exact ⟨front, back, hcs, hlength⟩
  · rintro ⟨front, back, rfl, rfl⟩
    rw [upTo?_append, Option.isSome_some]

instance (cs : List Char) (n : Nat) : Decidable (Boundary cs n) :=
  decidable_of_iff _ isSome_upTo?_iff

namespace Position

/-- Positions are ordered by their lines, and by their columns within a line. -/
def key (p : Position) : ℕ ×ₗ ℕ := toLex (p.line, p.column)

theorem key_lt_next (p : Position) (c : Char) : p.key < (p.next c).key := by
  rw [key, key, Prod.Lex.toLex_lt_toLex, next]
  split
  · exact .inl (Nat.lt_succ_self _)
  · exact .inr ⟨rfl, Nat.lt_succ_self _⟩

theorem key_le_foldl (p : Position) (cs : List Char) : p.key ≤ (cs.foldl next p).key := by
  induction cs generalizing p with
  | nil => exact le_rfl
  | cons c cs ih => exact (key_lt_next p c).le.trans (ih (p.next c))

theorem key_lt_after {front more : List Char} (h : more ≠ []) :
    (after front).key < (after (front ++ more)).key := by
  obtain ⟨c, more, rfl⟩ := List.exists_cons_of_ne_nil h
  rw [after, after, List.foldl_append, List.foldl_cons]
  exact (key_lt_next _ c).trans_le (key_le_foldl _ more)

end Position

theorem exists_lines (cs : List Char) : ∃ (ls : List (List Char)) (l : List Char),
    cs = ls.flatMap (· ++ ['\n']) ++ l ∧ (∀ x ∈ ls, '\n' ∉ x) ∧ '\n' ∉ l ∧
      Position.after cs = ⟨ls.length + 1, l.length + 1⟩ := by
  induction cs using List.reverseRecOn with
  | nil => exact ⟨[], [], rfl, fun _ h => (nomatch h), List.not_mem_nil, rfl⟩
  | append_singleton cs c ih =>
    obtain ⟨ls, l, hcs, hls, hl, hafter⟩ := ih
    have hnext : Position.after (cs ++ [c]) = (Position.after cs).next c := List.foldl_append
    rw [hnext, hafter, Position.next]
    by_cases hc : c = '\n'
    · subst hc
      refine ⟨ls ++ [l], [], ?_, ?_, List.not_mem_nil, ?_⟩
      · simp [hcs]
      · exact List.forall_mem_append.2 ⟨hls, List.forall_mem_singleton.2 hl⟩
      · simp
    · refine ⟨ls, l ++ [c], ?_, hls, ?_, ?_⟩
      · rw [hcs, List.append_assoc]
      · simp [hl, Ne.symm hc]
      · simp [hc]

theorem splitOn_append {l : List Char} (h : '\n' ∉ l) (cs : List Char) :
    (l ++ cs).splitOn '\n' = (cs.splitOn '\n').modifyHead (l ++ ·) := by
  induction l with
  | nil => exact (congrFun List.modifyHead_id _).symm
  | cons c l ih =>
    obtain ⟨hc, hl⟩ := not_or.1 (List.mem_cons.not.1 h)
    rw [List.cons_append, List.splitOn_cons_eq_if_modifyHead, if_neg (by simpa using Ne.symm hc),
      ih hl, List.modifyHead_modifyHead]
    rfl

/-- The offset at which the character of a position begins in its line, or at which its line
ends. -/
def Position.offset? (cs : List Char) (p : Position) : Option Nat :=
  let lines := cs.splitOn '\n'
  (lines[p.line - 1]?).bind fun line =>
    if p.column - 1 ≤ line.length then
      some (byteLength ((lines.take (p.line - 1)).flatMap (· ++ ['\n'])) +
        byteLength (line.take (p.column - 1)))
    else none

theorem Position.offset?_after (front back : List Char) :
    (after front).offset? (front ++ back) = some (byteLength front) := by
  obtain ⟨ls, l, hfront, hls, hl, hafter⟩ := exists_lines front
  obtain ⟨b, bs, hback⟩ := List.exists_cons_of_ne_nil (List.splitOn_ne_nil '\n' back)
  have hlines : (front ++ back).splitOn '\n' = ls ++ (l ++ b) :: bs := by
    rw [hfront, List.append_assoc, splitOn_lines hls, splitOn_append hl, hback]
    rfl
  rw [hafter, offset?, hlines, hfront, byteLength_append]
  simp

namespace Position

variable {source : String} {n n' : Nat}

theorem ofOffset_eq {front back : List Char} (h : source.toList = front ++ back) :
    ofOffset source (byteLength front) = after front := by
  rw [ofOffset, h, upTo?_append, Option.getD_some]

theorem ofOffset_lt (h : Boundary source.toList n) (h' : Boundary source.toList n') (hlt : n < n') :
    (ofOffset source n).key < (ofOffset source n').key := by
  obtain ⟨front, back, hcs, rfl⟩ := h
  obtain ⟨front', back', hcs', rfl⟩ := h'
  rw [ofOffset_eq hcs, ofOffset_eq hcs']
  rcases List.prefix_or_prefix_of_prefix ⟨back, hcs.symm⟩ ⟨back', hcs'.symm⟩ with
    ⟨more, rfl⟩ | ⟨more, rfl⟩
  · apply key_lt_after
    rintro rfl
    rw [List.append_nil] at hlt
    exact Nat.lt_irrefl _ hlt
  · rw [byteLength_append] at hlt
    omega

theorem offset?_ofOffset (h : Boundary source.toList n) :
    (ofOffset source n).offset? source.toList = some n := by
  obtain ⟨front, back, hcs, rfl⟩ := h
  rw [ofOffset_eq hcs, hcs, offset?_after]

theorem ofOffset_positive (n : Nat) :
    1 ≤ (ofOffset source n).line ∧ 1 ≤ (ofOffset source n).column := by
  obtain ⟨ls, l, -, -, -, hafter⟩ := exists_lines ((upTo? source.toList n).getD source.toList)
  rw [ofOffset, hafter]
  exact ⟨Nat.le_add_left 1 _, Nat.le_add_left 1 _⟩

theorem ofOffset_of_not_boundary (h : ¬ Boundary source.toList n) :
    ofOffset source n = ofOffset source source.utf8ByteSize := by
  rw [← byteLength_toList, ofOffset_eq (List.append_nil source.toList).symm, ofOffset,
    Option.not_isSome_iff_eq_none.1 (isSome_upTo?_iff.not.2 h), Option.getD_none]

end Position

end Text

open Text (Boundary Position)

theorem check_eq_ok {source : String} {p : Program} {s : Session}
    (h : check source = .ok (p, s)) : parse source = .ok p ∧ p.Analyzed s := by
  cases hp : parse source with
  | error e =>
    rw [check, hp] at h
    cases h
  | ok q =>
    obtain ⟨t, hanalyze, ht, -⟩ := compile_of_parse hp
    rw [check, hp] at h
    change (q.analyze >>= fun s => pure (q, s)) = _ at h
    rw [hanalyze] at h
    cases h
    exact ⟨rfl, ht⟩

theorem Program.spans_of_ofTokens {ts : List Token} (hts : InSequence ts) {p : Program}
    (h : Program.ofTokens ts = .ok p) :
    ∀ m ∈ p.functions.flatMap Function.marks, Outline.Spans ts m := by
  obtain ⟨us, ids, -, hvalue⟩ := Parser.reads_program (Cursor.start ts)
  rw [← p.marks_outlines]
  exact (hvalue p h).2.1.spans hts fun o _ us ho hus => ho.spans hus

theorem tokens_boundaries {source : String} {ts : List Token} (h : tokens source = .ok ts) :
    ∀ t ∈ ts, Boundary source.toList t.start ∧ Boundary source.toList t.stop := by
  have hmunch := tokens_maximal_munch source
  rw [h] at hmunch
  intro t ht
  obtain ⟨p, front, rest, hcs, hstart, hstop, -⟩ := hmunch.2.2.1 t ht
  refine ⟨⟨front, _, hcs, hstart.symm⟩, front ++ t.lexeme.toList, rest, ?_, hstop.symm⟩
  rw [hcs, List.append_assoc]

/-- The diagnostics of a text are at boundaries of it. The program itself has no offsets. -/
theorem diagnostics_boundaries {source : String} {p : Program} {s : Session}
    (h : check source = .ok (p, s)) : ∀ d ∈ s.diagnostics,
      Boundary source.toList d.mark.start ∧ Boundary source.toList d.mark.stop ∧
        d.mark.start ≤ d.mark.stop := by
  obtain ⟨hparse, hs⟩ := check_eq_ok h
  obtain ⟨ts, hts, hp⟩ := exists_tokens_of_parse hparse
  intro d hd
  rw [hs.diagnostics] at hd
  rcases List.mem_cons.1 (Program.mark_mem_marks hd) with hmark | hmark
  · rw [hmark]
    exact ⟨⟨[], _, rfl, rfl⟩, ⟨[], _, rfl, rfl⟩, Nat.le_refl 0⟩
  · obtain ⟨hlt, t, ht, t', ht', hstart, hstop⟩ :=
      Program.spans_of_ofTokens (tokens_ordered hts) hp _ hmark
    refine ⟨?_, ?_, hlt.le⟩
    · rw [hstart]
      exact (tokens_boundaries hts t ht).1
    · rw [hstop]
      exact (tokens_boundaries hts t' ht').2

/-- The positions of a text increase strictly with its boundaries, and tell them: a boundary is the
start of the character at its position, or the end of that line. Any other offset is shown as the
end of the text, but a diagnostic has no such offset. -/
theorem positions_tell_places (source : String) :
    (∀ n n', Boundary source.toList n → Boundary source.toList n' → n < n' →
      (Position.ofOffset source n).key < (Position.ofOffset source n').key) ∧
    (∀ n, Boundary source.toList n → 1 ≤ (Position.ofOffset source n).line ∧
      1 ≤ (Position.ofOffset source n).column ∧
        (Position.ofOffset source n).offset? source.toList = some n) ∧
    (∀ n, ¬ Boundary source.toList n →
      Position.ofOffset source n = Position.ofOffset source source.utf8ByteSize) ∧
    ∀ p s, check source = .ok (p, s) → ∀ d ∈ s.diagnostics,
      Boundary source.toList d.mark.start ∧ Boundary source.toList d.mark.stop ∧
        d.mark.start ≤ d.mark.stop := by
  refine ⟨fun n n' => Position.ofOffset_lt, fun n hn => ?_, fun n =>
    Position.ofOffset_of_not_boundary, fun p s => diagnostics_boundaries⟩
  have hpositive : 1 ≤ (Position.ofOffset source n).line ∧
      1 ≤ (Position.ofOffset source n).column :=
    Position.ofOffset_positive n
  obtain ⟨hline, hcolumn⟩ := hpositive
  exact ⟨hline, hcolumn, Position.offset?_ofOffset hn⟩

/-- A character of two bytes stands from offset 21 to offset 23. -/
def accentedSource : String := "func main()\n  write 'é' + 1;\nendfunc"

theorem accentedSource_positions :
    (Boundary accentedSource.toList 21 ∧ Boundary accentedSource.toList 23 ∧
      (Position.ofOffset accentedSource 21).key < (Position.ofOffset accentedSource 23).key) ∧
    (Position.ofOffset accentedSource 23 = ⟨2, 11⟩ ∧
      (Position.ofOffset accentedSource 23).offset? accentedSource.toList = some 23) ∧
    (¬ Boundary accentedSource.toList 22 ∧ Position.ofOffset accentedSource 22 =
      Position.ofOffset accentedSource accentedSource.utf8ByteSize) ∧
    ∃ p s, check accentedSource = .ok (p, s) ∧ s.diagnostics ≠ [] ∧ ∀ d ∈ s.diagnostics,
      Boundary accentedSource.toList d.mark.start ∧ Boundary accentedSource.toList d.mark.stop ∧
        d.mark.start ≤ d.mark.stop := by
  have hchars : accentedSource.toList = _ := String.toList_ofList
  obtain ⟨hlt, hfound, hend, hdiagnostics⟩ := positions_tell_places accentedSource
  have hbefore : Boundary accentedSource.toList 21 := by
    rw [hchars]
    decide +kernel
  have hbehind : Boundary accentedSource.toList 23 := by
    rw [hchars]
    decide +kernel
  have hinside : ¬ Boundary accentedSource.toList 22 := by
    rw [hchars]
    decide +kernel
  have hposition : Position.ofOffset accentedSource 23 = ⟨2, 11⟩ := by
    rw [Position.ofOffset, hchars]
    decide +kernel
  have hcheck : (check accentedSource).toOption.map (·.2.diagnostics.length) = some 1 := by
    rw [check, parse, tokens, hchars]
    decide +kernel
  refine ⟨⟨hbefore, hbehind, hlt 21 23 hbefore hbehind (by decide)⟩,
    ⟨hposition, (hfound 23 hbehind).2.2⟩, ⟨hinside, hend 22 hinside⟩, ?_⟩
  cases hresult : check accentedSource with
  | error e =>
    rw [hresult] at hcheck
    cases hcheck
  | ok r =>
    obtain ⟨p, s⟩ := r
    rw [hresult] at hcheck
    refine ⟨p, s, rfl, ?_, hdiagnostics p s hresult⟩
    intro hnil
    simp [hnil, Except.toOption] at hcheck

end Asl
