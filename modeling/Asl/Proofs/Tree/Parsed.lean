import Asl.Compile
import Asl.Proofs.Token.Words
import Asl.Proofs.Tree.Unbounded

/-!
# Parsed programs

A program that has been read flattens to the tokens it was read from, is well nested and formed, and
its nodes are numbered in the order in which they were completed: from zero without a gap or a
repetition, if no program was read before. Its names are taken from tokens, so they are identifiers.
-/
namespace Asl

open Outline (CoversAll)

/-- What a function declares, and the function itself, has an identifier for a name. -/
structure Function.Named (f : Function) : Prop where
  name : isIdentifier f.name.name = true
  params : ∀ q ∈ f.params, isIdentifier q.name.name = true
  locals : ∀ d ∈ f.declarations, ∀ x ∈ d.names, isIdentifier x.name = true

def Program.Named (p : Program) : Prop := ∀ f ∈ p.functions, f.Named

theorem Function.mem_kinds_of_param (f : Function) {q : Parameter} (hq : q ∈ f.params) :
    TokenKind.ident q.name.name ∈ f.kinds := by
  have hmem : TokenKind.ident q.name.name ∈ commaSeparated (f.params.map Parameter.kinds) :=
    mem_commaSeparated (List.mem_map_of_mem hq) List.mem_cons_self
  simp [kinds, inParens, hmem]

theorem Function.mem_kinds_of_local (f : Function) {d : Declaration} (hd : d ∈ f.declarations)
    {x : Ident} (hx : x ∈ d.names) : TokenKind.ident x.name ∈ f.kinds := by
  have hname := mem_commaSeparated
    (List.mem_map_of_mem (f := fun x : Ident => [TokenKind.ident x.name]) hx) List.mem_cons_self
  have hmem : TokenKind.ident x.name ∈ d.kinds :=
    List.mem_cons_of_mem _ (List.mem_append_left _ hname)
  have hdecls := List.mem_flatMap.2 ⟨d, hd, hmem⟩
  simp only [kinds, List.mem_cons, List.mem_append]
  exact Or.inr (Or.inr (Or.inr (Or.inr (Or.inl hdecls))))

theorem Function.named_of_kinds {f : Function}
    (h : ∀ x, TokenKind.ident x ∈ f.kinds → isIdentifier x = true) : f.Named where
  name := h _ (List.mem_cons_of_mem _ List.mem_cons_self)
  params _ hq := h _ (f.mem_kinds_of_param hq)
  locals _ hd _ hx := h _ (f.mem_kinds_of_local hd hx)

/-- A call passes a front part of the tokens. If it gives a program, these are all tokens that were
left, and the program is read from them. -/
theorem Parser.reads_program (c : Cursor) : ∃ ts ids, c.Passes ts ids (program.run c).2 ∧
    ∀ p, (program.run c).1 = .ok p → ids = p.ids ∧ CoversAll p.outlines c.rest ∧
      p.kinds = c.rest.map Token.kind ∧ p.WellNested ∧ p.Formed := by
  obtain ⟨ts, ids, hpass, hvalue⟩ := (Construct.program.meets c).reads
  refine ⟨ts, ids, hpass, fun p hp => ?_⟩
  obtain ⟨hend, ids', rfl, hbuilt, hne, hall⟩ := hvalue p hp
  have hrest : c.rest = ts := by rw [hpass.rest, hend, List.append_nil]
  have hnested : p.WellNested := List.forall_mem_flatMap.2 fun f hf => (hall f hf).1
  rw [hrest, p.ids_eq, hbuilt.ids, ← hbuilt.covers.kinds, p.kinds_outlines]
  exact ⟨rfl, hbuilt.covers, rfl, hnested, hne, fun f hf => (hall f hf).2⟩

section

variable {ts : List Token} {p : Program}

theorem Program.kinds_of_ofTokens (h : Program.ofTokens ts = .ok p) :
    p.kinds = ts.map Token.kind ∧ p.WellNested ∧ p.Formed := by
  obtain ⟨us, ids, -, hvalue⟩ := Parser.reads_program (Cursor.start ts)
  exact (hvalue p h).2.2

theorem Program.ids_ofTokens (h : Program.ofTokens ts = .ok p) :
    p.ids = List.range p.ids.length := by
  obtain ⟨us, ids, hpass, hvalue⟩ := Parser.reads_program (Cursor.start ts)
  rw [List.range_eq_range', ← (hvalue p h).1]
  exact hpass.inOrder

theorem Program.named_ofTokens (hts : ∀ t ∈ ts, t.Named) (h : Program.ofTokens ts = .ok p) :
    p.Named := by
  refine fun f hf => Function.named_of_kinds fun x hx => ?_
  have hmem : TokenKind.ident x ∈ p.kinds := List.mem_flatMap.2 ⟨f, hf, hx⟩
  rw [(kinds_of_ofTokens h).1] at hmem
  obtain ⟨t, ht, hkind⟩ := List.mem_map.1 hmem
  exact hts t ht x hkind

end

theorem exists_tokens_of_parse {source : String} {p : Program} (h : parse source = .ok p) :
    ∃ ts, tokens source = .ok ts ∧ Program.ofTokens ts = .ok p := by
  unfold parse at h
  cases hts : tokens source with
  | error e => simp [hts, Except.mapError, bind, Except.bind] at h
  | ok ts =>
    refine ⟨ts, rfl, ?_⟩
    cases hp : Program.ofTokens ts with
    | error e => simp [hts, hp, Except.mapError, bind, Except.bind] at h
    | ok q =>
      have hq : q = p := by simpa [hts, hp, Except.mapError, bind, Except.bind] using h
      rw [hq]

theorem parse_eq_ok {source : String} {p : Program} (h : parse source = .ok p) :
    p.ids.Nodup ∧ (∀ f ∈ p.functions, ∀ t, f.result = some t → ∃ b, t.spec = .base b) ∧
      p.Named := by
  obtain ⟨ts, hts, hp⟩ := exists_tokens_of_parse h
  have hformed := (Program.kinds_of_ofTokens hp).2.2
  refine ⟨?_, fun f hf => (hformed.formed f hf).result,
    Program.named_ofTokens (tokens_named hts) hp⟩
  rw [Program.ids_ofTokens hp]
  exact List.nodup_range

end Asl
