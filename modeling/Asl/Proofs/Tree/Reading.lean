import Asl.Proofs.Tree.Outline
import Mathlib.Data.List.Basic

/-!
# What a parser does

Two parsers are followed together along a token list, and what they do is said in one sentence:
they do the same, they pass a front part of the tokens that are left and hand out the next
identities, and what they give is described by these tokens and identities. There is one rule for
each way in which parsers are put together. While it runs, a parser is judged by the outlines of
what it has read since it began, and by a budget: how deep the parsers that it calls may go.
-/
namespace Asl

open Outline (Covers CoversAll covers_token coversAll_nil idsAll)

/-- From one place a cursor has come to another: it has passed tokens and handed out identities, and
its last end offset is the end of the last token passed. -/
structure Cursor.Passes (c : Cursor) (ts : List Token) (ids : List NodeId) (c' : Cursor) :
    Prop where
  rest : c.rest = ts ++ c'.rest
  lastStop : c'.lastStop = (ts.getLast?.map Token.stop).getD c.lastStop
  inOrder : ids = List.range' c.nextId ids.length
  nextId : c'.nextId = c.nextId + ids.length

def Cursor.Before (c c' : Cursor) : Prop := ∃ ts ids, c.Passes ts ids c'

namespace Cursor.Passes

variable {c c' c'' : Cursor} {ts ts' : List Token} {ids ids' : List NodeId}

theorem refl (c : Cursor) : c.Passes [] [] c := ⟨rfl, rfl, rfl, rfl⟩

theorem trans (h : c.Passes ts ids c') (h' : c'.Passes ts' ids' c'') :
    c.Passes (ts ++ ts') (ids ++ ids') c'' where
  rest := by rw [h.rest, h'.rest, List.append_assoc]
  lastStop := by
    rw [h'.lastStop, h.lastStop, List.getLast?_append]
    cases ts'.getLast? <;> rfl
  inOrder := by
    rw [List.length_append, ← List.range'_append_1, ← h.inOrder, ← h.nextId, ← h'.inOrder]
  nextId := by rw [h'.nextId, h.nextId, List.length_append, Nat.add_assoc]

theorem id (c : Cursor) : c.Passes [] [c.nextId] { c with nextId := c.nextId + 1 } :=
  ⟨rfl, rfl, rfl, rfl⟩

theorem token {t : Token} {rest : List Token} (h : c.rest = t :: rest) :
    c.Passes [t] [] { c with rest := rest, lastStop := t.stop } := ⟨h, rfl, rfl, rfl⟩

theorem length (h : c.Passes ts ids c') : c.rest.length = ts.length + c'.rest.length := by
  rw [h.rest, List.length_append]

theorem stop (h : c.Passes ts ids c') (hne : ts ≠ []) :
    ts.getLast?.map Token.stop = some c'.lastStop := by
  rw [h.lastStop, List.getLast?_eq_some_getLast hne]
  rfl

theorem head? (h : c.Passes ts ids c') (hne : ts ≠ []) : ts.head? = c.rest.head? := by
  obtain ⟨t, ts, rfl⟩ := List.exists_cons_of_ne_nil hne
  rw [h.rest]
  rfl

theorem before (h : c.Passes ts ids c') {c₀ : Cursor} (h₀ : c₀.Before c) : c₀.Before c' := by
  obtain ⟨us, js, hpass⟩ := h₀
  exact ⟨us ++ ts, js ++ ids, hpass.trans h⟩

end Cursor.Passes

namespace Outline

/-- Outlines of what has been read: they cover the tokens and have the identities, in order. -/
structure Built (os : List Outline) (ts : List Token) (ids : List NodeId) : Prop where
  covers : CoversAll os ts
  ids : idsAll os = ids

theorem built_nil : Built [] [] [] := ⟨rfl, rfl⟩

theorem built_token {t : Token} {k : TokenKind} (h : t.kind = k) : Built [.token k] [t] [] :=
  ⟨(covers_token h).singleton, rfl⟩

theorem idsAll_append (os os' : List Outline) : idsAll (os ++ os') = idsAll os ++ idsAll os' := by
  simp only [idsAll_eq_map, marksAll_append, List.map_append]

namespace Built

variable {os os' : List Outline} {ts ts' : List Token} {ids ids' : List NodeId}

theorem append (h : Built os ts ids) (h' : Built os' ts' ids') :
    Built (os ++ os') (ts ++ ts') (ids ++ ids') :=
  ⟨h.covers.append h'.covers, by rw [idsAll_append, h.ids, h'.ids]⟩

theorem ne_nil (h : Built os ts ids) (hne : os ≠ []) : ts ≠ [] := by
  obtain ⟨o, os, rfl⟩ := List.exists_cons_of_ne_nil hne
  exact h.covers.ne_nil

theorem of_nil (h : Built [] ts ids) : ts = [] ∧ ids = [] := ⟨h.covers, h.ids.symm⟩

theorem node (h : Built os ts ids) {m : Mark} (hstart : ts.head?.map Token.start = some m.start)
    (hstop : ts.getLast?.map Token.stop = some m.stop) :
    Built [.node false m os] ts (ids ++ [m.id]) := by
  refine ⟨Covers.singleton ⟨h.covers, hstart, hstop⟩, ?_⟩
  rw [idsAll, Outline.ids, h.ids, idsAll, List.append_nil]
  rfl

theorem nodeBefore (h : Built os ts ids) {m : Mark}
    (hstart : ts.head?.map Token.start = some m.start)
    (hstop : ts.getLast?.map Token.stop = some m.stop) :
    Built [.node true m os] ts (m.id :: ids) := by
  refine ⟨Covers.singleton ⟨h.covers, hstart, hstop⟩, ?_⟩
  rw [idsAll, Outline.ids, h.ids, idsAll, List.append_nil]
  rfl

theorem start {b : Bool} {m : Mark} (h : Built (.node b m os :: os') ts ids) :
    ts.head?.map Token.start = some m.start := by
  obtain ⟨us, vs, rfl, ho, -⟩ := h.covers
  obtain ⟨t, us, rfl⟩ := List.exists_cons_of_ne_nil ho.ne_nil
  exact ho.2.1

end Built

end Outline

open Outline (Built built_nil built_token)

theorem Expr.start_of_built {e : Expr} {os : List Outline} {ts : List Token} {ids : List NodeId}
    (h : Built (e.outline :: os) ts ids) : ts.head?.map Token.start = some e.mark.start := by
  obtain ⟨parts, hparts⟩ := e.exists_outline
  rw [hparts] at h
  exact h.start

namespace Parser

open Attempt (fail)

variable {α β : Type}

/-- What is said of a value: by the tokens that were passed, the identities that were handed out and
the tokens that are left. -/
abbrev Description (α : Type) : Type := α → List Token → List NodeId → List Token → Prop

/-- What was passed has these outlines. -/
def Outlined (o : α → List Outline) (V : α → Prop) : Description α :=
  fun a ts ids _ => Built (o a) ts ids ∧ V a

/-- What was passed has outlines that are not the same in all cases, and `R` says which. -/
def Parts (R : α → List Outline → Prop) : Description α :=
  fun a ts ids _ => ∃ os, Built os ts ids ∧ os ≠ [] ∧ R a os

/-- Two parsers do the same at a cursor: they pass tokens, a value is as described, and they do not
complain that the end has not been reached. -/
structure Meets (c : Cursor) (m m' : Parser α) (P : Description α) : Prop where
  same : m.run c = m'.run c
  reads : ∃ ts ids, c.Passes ts ids (m'.run c).2 ∧
    ∀ a, (m'.run c).1 = .ok a → P a ts ids (m'.run c).2.rest
  complete : ∀ found, (m'.run c).1 ≠ .error (.notAtEnd found)

section

variable {c : Cursor} {m m' : Parser α} {f f' : α → Parser β} {P : Description α}
  {Q : Description β}

theorem Meets.imp (h : Meets c m m' P) {P' : Description α}
    (hP : ∀ a ts ids left, c.rest = ts ++ left → P a ts ids left → P' a ts ids left) :
    Meets c m m' P' := by
  obtain ⟨hsame, ⟨ts, ids, hpass, hvalue⟩, hcomplete⟩ := h
  exact ⟨hsame, ⟨ts, ids, hpass, fun a ha => hP a _ _ _ hpass.rest (hvalue a ha)⟩, hcomplete⟩

theorem Meets.bind (hm : Meets c m m' P)
    (hf : ∀ a ts ids c', c.Passes ts ids c' → P a ts ids c'.rest →
      Meets c' (f a) (f' a) fun b ts' ids' left => Q b (ts ++ ts') (ids ++ ids') left) :
    Meets c (m >>= f) (m' >>= f') Q := by
  obtain ⟨hsame, ⟨ts, ids, hpass, hvalue⟩, hcomplete⟩ := hm
  rcases hrun : m'.run c with ⟨e | a, c'⟩
  · have hfails : (m' >>= f').run c = (.error e, c') := by rw [Attempt.run_bind, hrun]
    rw [hrun] at hsame hpass hcomplete
    refine ⟨?_, ?_, fun found h => ?_⟩
    · rw [hfails, Attempt.run_bind, hsame]
    · rw [hfails]
      exact ⟨ts, ids, hpass, fun a ha => by cases ha⟩
    · rw [hfails] at h
      exact hcomplete found (congrArg Except.error (Except.error.inj h))
  · have hgoes : (m' >>= f').run c = (f' a).run c' := by rw [Attempt.run_bind, hrun]
    rw [hrun] at hsame hpass hvalue
    obtain ⟨hsame', ⟨ts', ids', hpass', hvalue'⟩, hcomplete'⟩ := hf a ts ids c' hpass (hvalue a rfl)
    refine ⟨?_, ?_, ?_⟩
    · rw [hgoes, Attempt.run_bind, hsame, ← hsame']
    · rw [hgoes]
      exact ⟨ts ++ ts', ids ++ ids', hpass.trans hpass', hvalue'⟩
    · rw [hgoes]
      exact hcomplete'

theorem meets_pure {a : α} (h : P a [] [] c.rest) : Meets c (pure a) (pure a) P := by
  refine ⟨rfl, ⟨[], [], .refl c, fun a' ha' => ?_⟩, fun _ => nofun⟩
  cases ha'
  exact h

theorem meets_fail {e : ParseError} (he : ∀ found, e ≠ .notAtEnd found) :
    Meets c (fail e : Parser α) (fail e) P :=
  ⟨rfl, ⟨[], [], .refl c, fun _ ha => nomatch ha⟩, fun found h => he found (Except.error.inj h)⟩

/-- A number is handed out before the rest is read. -/
theorem Meets.of_id {m₁ m₁' : Parser α}
    (h : Meets { c with nextId := c.nextId + 1 } m₁ m₁' fun a ts ids left =>
      P a ts (c.nextId :: ids) left)
    (hrun : m.run c = m₁.run { c with nextId := c.nextId + 1 })
    (hrun' : m'.run c = m₁'.run { c with nextId := c.nextId + 1 }) : Meets c m m' P := by
  obtain ⟨hsame, ⟨ts, ids, hpass, hvalue⟩, hcomplete⟩ := h
  refine ⟨by rw [hrun, hrun', hsame], ?_, by rwa [hrun']⟩
  rw [hrun']
  exact ⟨ts, c.nextId :: ids, (Cursor.Passes.id c).trans hpass, hvalue⟩

theorem Meets.of_run {m₁ m₁' : Parser α} (h : Meets c m₁ m₁' P) (hrun : m.run c = m₁.run c)
    (hrun' : m'.run c = m₁'.run c) : Meets c m m' P :=
  ⟨by rw [hrun, hrun', h.same], by rw [hrun']; exact h.reads, by rw [hrun']; exact h.complete⟩

end

/-- Parsers that go on with a reading. It began at `c₁`, and of what it has passed so far `S` holds.
If it stays behind `c₀` and `n` levels of calls are left to it, where constructs below rank `g` can
be called before a token is passed, then it meets its description. -/
def Continues (c₀ : Cursor) (n g : Nat) (c₁ : Cursor) (S : List Token → List NodeId → Prop)
    (c : Cursor) (m m' : Parser α) (Q : Description α) : Prop :=
  ∀ us js, c₀.Before c₁ → c₁.Passes us js c → S us js → 13 * c.rest.length + g ≤ n + 1 →
    Meets c m m' fun a ts ids left => Q a (us ++ ts) (js ++ ids) left

section

variable {c₀ c₁ c : Cursor} {n g : Nat} {S : List Token → List NodeId → Prop}
  {os : List Outline} {m m' : Parser α} {f f' : α → Parser β} {P : Description α}
  {Q : Description β}

theorem Continues.meets (h : Continues c₀ n g c (Built []) c m m' P) (hbefore : c₀.Before c)
    (hc : 13 * c.rest.length + g ≤ n + 1) : Meets c m m' P :=
  h [] [] hbefore (.refl c) built_nil hc

theorem Continues.imp {P' : Description α} (h : Continues c₀ n g c₁ S c m m' P)
    (hP : ∀ a ts ids left, c₁.rest = ts ++ left → P a ts ids left → P' a ts ids left) :
    Continues c₀ n g c₁ S c m m' P' := by
  intro us js hbefore hpass hS hc
  refine (h us js hbefore hpass hS hc).imp fun a ts ids left hrest ha => hP a _ _ _ ?_ ha
  rw [hpass.rest, hrest, List.append_assoc]

/-- What is read next is read on its own. -/
theorem Continues.within {P' : Description α} (h : Continues c₀ n g c (Built []) c m m' P)
    (hP : ∀ a us js ts ids left, S us js → P a ts ids left → P' a (us ++ ts) (js ++ ids) left) :
    Continues c₀ n g c₁ S c m m' P' := fun us js hbefore hpass hS hc =>
  (h.meets (hpass.before hbefore) hc).imp fun a ts ids left _ ha => hP a us js ts ids left hS ha

/-- A reading calls another, which has a token if `b` says so. -/
theorem Continues.bind {b : Bool} (S' : α → List Token → List Token → List NodeId → Prop)
    (hm : c₀.Before c → 13 * c.rest.length + g ≤ n + 1 → Meets c m m' P)
    (hb : ∀ a ts ids left, P a ts ids left → b = true → ts ≠ [])
    (hS : ∀ a us js ts ids left, S us js → P a ts ids left →
      S' a left (us ++ ts) (js ++ ids))
    (hf : ∀ a c', Continues c₀ n (cond b 13 g) c₁ (S' a c'.rest) c' (f a) (f' a) Q) :
    Continues c₀ n g c₁ S c (m >>= f) (m' >>= f') Q := by
  intro us js hbefore hpass hs hc
  refine (hm (hpass.before hbefore) hc).bind fun a ts ids c' hpass' ha => ?_
  have hlength := hpass'.length
  refine (hf a c' (us ++ ts) (js ++ ids) hbefore (hpass.trans hpass')
    (hS a us js ts ids _ hs ha) ?_).imp fun b ts' ids' left _ hb => ?_
  · cases b with
    | false =>
      rw [cond_false]
      omega
    | true =>
      have hpos := List.length_pos_iff.2 (hb a ts ids _ ha rfl)
      rw [cond_true]
      omega
  · rwa [List.append_assoc, List.append_assoc] at hb

theorem Continues.bindParts {R : α → List Outline → Prop}
    (hm : Continues c₀ n g c (Built []) c m m' (Parts R))
    (hf : ∀ a os c', os ≠ [] → R a os → Continues c₀ n 13 c (Built os) c' (f a) (f' a) Q) :
    Continues c₀ n g c (Built []) c (m >>= f) (m' >>= f') Q := by
  refine Continues.bind (b := true) (fun a _ ts ids => ∃ os, Built os ts ids ∧ os ≠ [] ∧ R a os)
    hm.meets (fun a ts ids left ha _ => ?_) (fun a us js ts ids left hus ha => ?_) fun a c' => ?_
  · obtain ⟨os, hbuilt, hne, -⟩ := ha
    exact hbuilt.ne_nil hne
  · obtain ⟨rfl, rfl⟩ := hus.of_nil
    exact ha
  · rintro us js hbefore hpass ⟨os, hbuilt, hne, ha⟩ hc
    exact hf a os c' hne ha us js hbefore hpass hbuilt hc

theorem continues_pure {a : α} (h : ∀ us js, S us js → P a us js c.rest) :
    Continues c₀ n g c₁ S c (pure a) (pure a) P := by
  intro us js _ _ hs _
  refine meets_pure ?_
  rw [List.append_nil, List.append_nil]
  exact h us js hs

theorem continues_fail {e : ParseError} (he : ∀ found, e ≠ .notAtEnd found) :
    Continues c₀ n g c₁ S c (fail e : Parser α) (fail e) P := fun _ _ _ _ _ _ => meets_fail he

theorem continues_given {o : α → List Outline} {V : α → Prop} {a : α} (ho : os = o a) (hv : V a) :
    Continues c₀ n g c₁ (Built os) c (pure a) (pure a) (Outlined o V) :=
  continues_pure fun _ _ h => ⟨ho ▸ h, hv⟩

theorem continues_parts {R : α → List Outline → Prop} {a : α} (hne : os ≠ []) (h : R a os) :
    Continues c₀ n g c₁ (Built os) c (pure a) (pure a) (Parts R) :=
  continues_pure fun _ _ hs => ⟨os, hs, hne, h⟩

theorem Continues.of_run {m₁ m₁' : Parser α} (h : Continues c₀ n g c₁ S c m₁ m₁' P)
    (hrun : m.run c = m₁.run c) (hrun' : m'.run c = m₁'.run c) :
    Continues c₀ n g c₁ S c m m' P := fun us js hbefore hpass hs hc =>
  (h us js hbefore hpass hs hc).of_run hrun hrun'

theorem continues_peek? {f f' : Option TokenKind → Parser β}
    (h : Continues c₀ n g c₁ S c (f (c.rest.head?.map Token.kind))
      (f' (c.rest.head?.map Token.kind)) Q) :
    Continues c₀ n g c₁ S c (peek? >>= f) (peek? >>= f') Q := h.of_run rfl rfl

theorem continues_peekSecond? {f f' : Option TokenKind → Parser β}
    (h : ∀ second, Continues c₀ n g c₁ S c (f second) (f' second) Q) :
    Continues c₀ n g c₁ S c (peekSecond? >>= f) (peekSecond? >>= f') Q := (h _).of_run rfl rfl

theorem continues_peek {f f' : Token → Parser β}
    (h : ∀ t, c.rest.head? = some t → Continues c₀ n g c₁ S c (f t) (f' t) Q) :
    Continues c₀ n g c₁ S c (peek >>= f) (peek >>= f') Q := by
  cases hrest : c.rest with
  | nil =>
    have hrun (f : Token → Parser β) : (peek >>= f).run c =
        (fail .unexpectedEnd : Parser β).run c := by
      rw [Attempt.run_bind, peek_run_nil hrest]
      rfl
    exact (continues_fail (e := .unexpectedEnd) fun _ => nofun).of_run (hrun f) (hrun f')
  | cons t rest =>
    have hrun (f : Token → Parser β) : (peek >>= f).run c = (f t).run c := by
      rw [Attempt.run_bind, peek_run_cons hrest]
    exact (h t (by rw [hrest, List.head?_cons])).of_run (hrun f) (hrun f')

theorem continues_lastStop {f f' : Nat → Parser β}
    (h : Continues c₀ n g c₁ S c (f c.lastStop) (f' c.lastStop) Q) :
    Continues c₀ n g c₁ S c (lastStop >>= f) (lastStop >>= f') Q := h.of_run rfl rfl

/-- A reading that begins with an identity reads the rest behind it. -/
theorem continues_freshId {f f' : NodeId → Parser β}
    (h : ∀ c', c'.rest = c.rest → Continues c₀ n g c' (Built []) c' (f c.nextId) (f' c.nextId)
      fun b ts ids left => Q b ts (c.nextId :: ids) left) :
    Continues c₀ n g c (Built []) c (freshId >>= f) (freshId >>= f') Q := by
  intro us js hbefore hpass hs hc
  obtain ⟨rfl, rfl⟩ := hs.of_nil
  exact ((h { c with nextId := c.nextId + 1 } rfl).meets ((Cursor.Passes.id c).before hbefore)
    hc).of_id rfl rfl

theorem continues_mark {start : Nat} {f f' : Mark → Parser β}
    (hstart : ∀ ts ids, Built os ts ids → c₁.Passes ts ids c →
      ts.head?.map Token.start = some start) (hne : os ≠ [])
    (h : ∀ mark c', c'.rest = c.rest →
      Continues c₀ n g c₁ (Built [.node false mark os]) c' (f mark) (f' mark) Q) :
    Continues c₀ n g c₁ (Built os) c (mark start >>= f) (mark start >>= f') Q := by
  intro us js hbefore hpass hs hc
  have hnode := hs.node (m := ⟨c.nextId, start, c.lastStop⟩) (hstart us js hs hpass)
    (hpass.stop (hs.ne_nil hne))
  have hrest := h ⟨c.nextId, start, c.lastStop⟩ { c with nextId := c.nextId + 1 } rfl us
    (js ++ [c.nextId]) hbefore (List.append_nil us ▸ hpass.trans (.id c)) hnode hc
  refine Meets.of_id ?_ rfl rfl
  simpa only [List.append_assoc, List.singleton_append] using hrest

/-- A reading that ends with the mark of its node gives this node. -/
theorem continues_node {o : α → List Outline} {V : α → Prop} {node : Mark → α} {t : Token}
    (ht : c₁.rest.head? = some t) (hne : os ≠ [])
    (hnode : ∀ mark, o (node mark) = [.node false mark os]) (hv : ∀ mark, V (node mark)) :
    Continues c₀ n g c₁ (Built os) c (do return node (← mark t.start))
      (do return node (← mark t.start)) (Outlined o V) := by
  refine continues_mark (fun ts ids hbuilt hpass => ?_) hne fun mark c' _ =>
    continues_given (hnode mark).symm (hv mark)
  rw [hpass.head? (hbuilt.ne_nil hne), ht]
  rfl

theorem atEnd_run_nil (hc : c.rest = []) : atEnd.run c = (.ok (), c) := by
  obtain ⟨rest, stop, id⟩ := c
  cases hc
  rfl

theorem continues_atEnd (hc : c.rest = []) {f f' : Unit → Parser β}
    (h : Continues c₀ n g c₁ S c (f ()) (f' ()) Q) :
    Continues c₀ n g c₁ S c (atEnd >>= f) (atEnd >>= f') Q := by
  have hrun (f : Unit → Parser β) : (atEnd >>= f).run c = (f ()).run c := by
    rw [Attempt.run_bind, atEnd_run_nil hc]
  exact h.of_run (hrun f) (hrun f')

end

end Parser

end Asl
