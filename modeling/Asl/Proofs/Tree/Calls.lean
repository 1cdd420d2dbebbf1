import Asl.Proofs.Token.Division
import Asl.Proofs.Tree.Parsed

/-!
# Reading programs again and again

A parser can be called again on what an earlier call has left, also after a failure: the cursor
stays where that call put it, and so does the count of the identities. Every call hands out
identities that no earlier call has handed out, and what it gives covers just the tokens that were
left to it.
-/
namespace Asl

open Outline (CoversAll RankedAll SpacedAll)

/-- What calls give, one after the other, each on the cursor that the one before has left. -/
def Parser.calls : Nat → Cursor → List (Except ParseError Program)
  | 0, _ => []
  | n + 1, c => (program.run c).1 :: calls n (program.run c).2

def Parser.idsOfCalls (results : List (Except ParseError Program)) : List NodeId :=
  (results.filterMap Except.toOption).flatMap Program.ids

/-- The nodes of a program are numbered and lie as the text has them: the program comes before all
nodes in it, functions before their parts, all other nodes behind their parts; and every node spans
the tokens that it is built from. -/
structure Program.Placed (p : Program) (ts : List Token) : Prop where
  ids : p.ids = p.id :: Outline.idsAll p.outlines
  first : ∀ i ∈ Outline.idsAll p.outlines, p.id < i
  ranked : RankedAll p.outlines
  covers : CoversAll p.outlines ts
  spaced : SpacedAll p.outlines

theorem Program.placed_of_ids {p : Program} {ts : List Token} (h : p.ids.Pairwise (· < ·))
    (hcovers : CoversAll p.outlines ts) (hts : InSequence ts) : p.Placed ts := by
  rw [Program.ids_eq] at h
  obtain ⟨hfirst, hparts⟩ := List.pairwise_cons.1 h
  exact {
    ids := p.ids_eq
    first := hfirst
    ranked := Outline.rankedAll_of_ids hparts fun o _ => Outline.ranked_of_ids
    covers := hcovers
    spaced := hcovers.spaced hts fun o _ _ ho => ho.spaced }

namespace Parser

variable {c : Cursor}

theorem program_passes (c : Cursor) :
    (program.run c).2.rest <:+ c.rest ∧ c.nextId ≤ (program.run c).2.nextId := by
  obtain ⟨ts, ids, hpass, -⟩ := reads_program c
  exact ⟨⟨ts, hpass.rest.symm⟩, hpass.nextId ▸ Nat.le_add_right _ _⟩

theorem program_eq_ok {p : Program} (h : (program.run c).1 = .ok p) :
    (∃ n, (program.run c).2.nextId = c.nextId + n ∧ p.ids = List.range' c.nextId n) ∧
      CoversAll p.outlines c.rest := by
  obtain ⟨ts, ids, hpass, hvalue⟩ := reads_program c
  obtain ⟨rfl, hcovers, -⟩ := hvalue p h
  exact ⟨⟨p.ids.length, hpass.nextId, hpass.inOrder⟩, hcovers⟩

theorem mem_idsOfCalls_cons {r : Except ParseError Program} {rs : List (Except ParseError Program)}
    {i : NodeId} (h : i ∈ idsOfCalls (r :: rs)) :
    (∃ p, r = .ok p ∧ i ∈ p.ids) ∨ i ∈ idsOfCalls rs := by
  cases r with
  | error e => exact .inr h
  | ok p => exact (List.mem_append.1 h).imp (fun h => ⟨p, rfl, h⟩) id

theorem lt_of_program_eq_ok {p : Program} (h : (program.run c).1 = .ok p)
    {i : NodeId} (hi : i ∈ p.ids) : c.nextId ≤ i ∧ i < (program.run c).2.nextId := by
  obtain ⟨⟨n, hn, hids⟩, -⟩ := program_eq_ok h
  rw [hids] at hi
  rw [hn]
  exact List.mem_range'_1.1 hi

theorem ids_increasing {p : Program} (h : (program.run c).1 = .ok p) :
    p.ids.Pairwise (· < ·) := by
  obtain ⟨⟨n, -, hids⟩, -⟩ := program_eq_ok h
  rw [hids]
  exact List.pairwise_lt_range'

theorem le_of_mem_idsOfCalls (n : Nat) {i : NodeId}
    (h : i ∈ idsOfCalls (calls n c)) : c.nextId ≤ i := by
  induction n generalizing c with
  | zero => cases h
  | succ n ih =>
    have hnext := (program_passes c).2
    rcases mem_idsOfCalls_cons h with ⟨p, hp, hi⟩ | h
    · exact (lt_of_program_eq_ok hp hi).1
    · exact Nat.le_trans hnext (ih h)

theorem idsOfCalls_increasing (n : Nat) :
    (idsOfCalls (calls n c)).Pairwise (· < ·) := by
  induction n generalizing c with
  | zero => exact .nil
  | succ n ih =>
    have hrest := ih (c := (program.run c).2)
    cases hresult : (program.run c).1 with
    | error e =>
      rw [calls, hresult]
      exact hrest
    | ok p =>
      rw [calls, hresult]
      refine List.pairwise_append.2 ⟨ids_increasing hresult, hrest, fun i hi j hj => ?_⟩
      exact Nat.lt_of_lt_of_le (lt_of_program_eq_ok hresult hi).2 (le_of_mem_idsOfCalls n hj)

theorem placed_of_program_eq_ok (hts : InSequence c.rest) {p : Program}
    (h : (program.run c).1 = .ok p) : p.Placed c.rest :=
  Program.placed_of_ids (ids_increasing h) (program_eq_ok h).2 hts

theorem placed_of_mem_calls (n : Nat) (hts : InSequence c.rest) {p : Program}
    (hp : .ok p ∈ calls n c) : ∃ ts, ts <:+ c.rest ∧ p.Placed ts := by
  induction n generalizing c with
  | zero => cases hp
  | succ n ih =>
    rcases List.mem_cons.1 hp with hp | hp
    · exact ⟨c.rest, List.suffix_refl _, placed_of_program_eq_ok hts hp.symm⟩
    · obtain ⟨⟨ts, hpass⟩, -⟩ := program_passes c
      have hts' : InSequence (program.run c).2.rest := by
        rw [← hpass] at hts
        exact hts.append.2.1
      obtain ⟨us, hsuffix, hplaced⟩ := ih hts' hp
      exact ⟨us, hsuffix.trans (program_passes c).1, hplaced⟩

end Parser

/-- However often a parser is called on the tokens of a text, no identity occurs twice in the trees
that it gives, and every tree is numbered and placed as its text has it. If the first call gives
a tree, that tree is numbered from zero without a gap and is read from all the tokens. -/
theorem calls_placed {source : String} {ts : List Token} (h : tokens source = .ok ts) (n : Nat) :
    (Parser.idsOfCalls (Parser.calls n (Cursor.start ts))).Nodup ∧
      (∀ p, .ok p ∈ Parser.calls n (Cursor.start ts) → ∃ us, us <:+ ts ∧ p.Placed us) ∧
      ∀ p, (Parser.calls n (Cursor.start ts)).head? = some (.ok p) →
        p.ids = List.range p.ids.length ∧ p.Placed ts := by
  have hordered : InSequence (Cursor.start ts).rest := tokens_ordered h
  refine ⟨?_, fun p => Parser.placed_of_mem_calls n hordered, fun p hp => ?_⟩
  · exact (Parser.idsOfCalls_increasing n).imp Nat.ne_of_lt
  · cases n with
    | zero => cases hp
    | succ n =>
      have hfirst : (Parser.program.run (Cursor.start ts)).1 = .ok p := Option.some.inj hp
      exact ⟨Program.ids_ofTokens hfirst, Parser.placed_of_program_eq_ok hordered hfirst⟩

/-- The first `func` has no name. Reading again goes on at the second one. -/
def stutteringSource : String := "func func main() write 1 + 2; endfunc"

theorem stutteringSource_calls : ∃ ts, tokens stutteringSource = .ok ts ∧
    (Parser.calls 2 (Cursor.start ts)).map (·.toOption.isSome) = [false, true] ∧
    (Parser.idsOfCalls (Parser.calls 2 (Cursor.start ts))).Nodup ∧
      (∀ p, .ok p ∈ Parser.calls 2 (Cursor.start ts) → ∃ us, us <:+ ts ∧ p.Placed us) ∧
      ∀ p, (Parser.calls 2 (Cursor.start ts)).head? = some (.ok p) →
        p.ids = List.range p.ids.length ∧ p.Placed ts := by
  have hchars : stutteringSource.toList = _ := String.toList_ofList
  have hresults : (tokens stutteringSource).toOption.map (fun ts =>
      (Parser.calls 2 (Cursor.start ts)).map (·.toOption.isSome)) = some [false, true] := by
    rw [tokens, hchars]
    decide +kernel
  cases hts : tokens stutteringSource with
  | error e =>
    rw [hts] at hresults
    cases hresults
  | ok ts =>
    rw [hts] at hresults
    exact ⟨ts, rfl, Option.some.inj hresults, calls_placed hts 2⟩

end Asl
