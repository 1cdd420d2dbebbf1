import Asl.Proofs.Tree.Constructs
import Asl.Proofs.Tree.Reading

/-!
# What each construct gives

Every construct has its description: the outlines of what it gives cover the tokens that its parser
has passed and have the identities that it has handed out; and what it gives is well nested, since a
level of operators joins operands of the next level only, and formed, since a parser checks whatever
the form of a tree requires beyond its shape.

The walk over all constructs is made once. Readers of which two sets agree, so many levels of calls
deep, agree one level deeper when they are called by the grammar, and what they give is as
described.
-/
namespace Asl.Parser

open Attempt (fail)
open Outline (Built built_nil built_token commas parens brackets)

variable {α β : Type}

def Member.outlines : Member α → α → List Outline
  | .name, x => [x.outline]
  | .argument, e => [e.outline]
  | .parameter, q => q.outlines

def Member.Valid : Member α → α → Prop
  | .name, _ => True
  | .argument, e => e.Each Expr.Canonical
  | .parameter, q => q.type.spec.Sized

namespace Item

/-- The token that is passed before an item. -/
def lead : Item α → List Outline
  | .member _ => [.token (.symbol .comma)]
  | .declaration => [.token (.keyword .var)]
  | .statement | .function => []

/-- An item without that token. -/
def inner : Item α → α → List Outline
  | .member m, a => m.outlines a
  | .declaration, d =>
      commas (d.names.map ([·.outline])) ++ [.token (.symbol .colon), d.type.outline]
  | .statement, s => [s.outline]
  | .function, f => [f.outline]

def outlines (i : Item α) (a : α) : List Outline := i.lead ++ i.inner a

def Valid : Item α → α → Prop
  | .member m, a => m.Valid a
  | .declaration, d => d.names ≠ [] ∧ d.type.spec.Sized
  | .statement, s => ∀ e ∈ s.exprs, e.Canonical
  | .function, f => (∀ e ∈ Stmt.exprsAll f.body, e.Nested) ∧ f.Formed

theorem lead_of_follows {i : Item α} {k : TokenKind} {u : Unit} (hled : i.isLed = true)
    (h : i.follows k = some u) : i.lead = [.token k] := by
  cases i with
  | member m =>
    have hk : k = .symbol .comma := by simpa [follows] using h
    rw [hk]
    rfl
  | declaration =>
    have hk : k = .keyword .var := by simpa [follows] using h
    rw [hk]
    rfl
  | statement => cases hled
  | function => cases hled

end Item

def Construct.description : {α : Type} → Construct α → Cursor → Description α
  | _, .token kind, _ => Outlined (fun _ => [.token kind]) fun _ => True
  | _, .name, _ => Outlined (fun x => [x.outline]) fun _ => True
  | _, .baseType, _ => Outlined (fun b => [.token (.keyword b.keyword)]) fun _ => True
  | _, .arraySize, _ => Outlined (fun n => [.token (.int n)]) fun n => 1 ≤ n
  | _, .typeSpec, _ => Outlined (fun t => t.kinds.map .token) fun t => t.Sized
  | _, .typeNote, _ => Outlined (fun t => [t.outline]) fun t => t.spec.Sized
  | _, .index, _ => Outlined (fun e => brackets [e.outline]) fun e => e.Each Expr.Canonical
  | _, .arguments, _ =>
      Outlined (fun es => parens (commas (Expr.outlines es))) fun es =>
        ∀ e ∈ es, e.Each Expr.Canonical
  | _, .call, _ =>
      Outlined (fun r => r.1.outline :: parens (commas (Expr.outlines r.2))) fun r =>
        ∀ e ∈ r.2, e.Each Expr.Canonical
  | _, .separated m, _ =>
      Outlined (fun as => commas (as.map m.outlines)) fun as => as ≠ [] ∧ ∀ a ∈ as, m.Valid a
  | _, .listed m, _ => Outlined (fun as => commas (as.map m.outlines)) fun as => ∀ a ∈ as, m.Valid a
  | _, .rest item items, _ => fun as ts ids left => ∃ more, as = items ++ more ∧
      Built (more.flatMap item.outlines) ts ids ∧ (∀ a ∈ more, item.Valid a) ∧
        (left.head?.map Token.kind).bind item.follows = none
  | _, .primary, _ | _, .operand, _ =>
      Outlined (fun e => [e.outline]) fun e => e.Each Expr.Canonical ∧ 6 ≤ e.strength
  | _, .level l, _ =>
      Outlined (fun e => [e.outline]) fun e => e.Each Expr.Canonical ∧ l.number ≤ e.strength
  | _, .chain l lhs, c => fun e ts ids _ => ∀ (c₁ : Cursor) us js, c₁.Passes us js c →
      Built [lhs.outline] us js → lhs.Each Expr.Canonical ∧ l.number ≤ lhs.strength →
        Built [e.outline] (us ++ ts) (js ++ ids) ∧ e.Each Expr.Canonical ∧ l.number ≤ e.strength
  | _, .expr, _ => Outlined (fun e => [e.outline]) fun e => e.Each Expr.Canonical
  | _, .target, _ => Outlined (fun t => [t.outline]) fun t => ∀ e ∈ t.exprs, e.Canonical
  | _, .statement, _ => Outlined (fun s => [s.outline]) fun s => ∀ e ∈ s.exprs, e.Canonical
  | _, .statementOf kind, c => Parts fun s os =>
      c.rest.head?.map Token.kind = some kind → os = [s.outline] ∧ ∀ e ∈ s.exprs, e.Canonical
  | _, .body, _ => Outlined Stmt.outlines fun ss => ∀ e ∈ Stmt.exprsAll ss, e.Canonical
  | _, .parameter, _ => Outlined Parameter.outlines fun q => q.type.spec.Sized
  | _, .result, _ =>
      Outlined TypeNote.resultOutlines fun r => ∀ t, r = some t → ∃ b, t.spec = .base b
  | _, .declaration, _ => Outlined (Item.declaration).inner (Item.declaration).Valid
  | _, .declarations, _ =>
      Outlined (fun ds => ds.flatMap Declaration.outlines) fun ds =>
        ∀ d ∈ ds, (Item.declaration).Valid d
  | _, .function, _ => Outlined (fun f => [f.outline]) (Item.function).Valid
  | _, .program, _ => fun p ts ids left => left = [] ∧ ∃ ids', ids = p.id :: ids' ∧
      Built p.outlines ts ids' ∧ p.functions ≠ [] ∧ ∀ f ∈ p.functions, (Item.function).Valid f

theorem Member.description_construct (m : Member α) {c : Cursor} {a : α} {ts left : List Token}
    {ids : List NodeId} (h : m.construct.description c a ts ids left) :
    Built (m.outlines a) ts ids ∧ m.Valid a := by
  cases m <;> exact h

theorem Item.description_construct (i : Item α) {c : Cursor} {a : α} {ts left : List Token}
    {ids : List NodeId} (h : i.construct.description c a ts ids left) :
    Built (i.inner a) ts ids ∧ i.Valid a := by
  cases i with
  | member m => exact m.description_construct h
  | _ => exact h

theorem Level.description_tighter (l : Level) {c : Cursor} {e : Expr} {ts left : List Token}
    {ids : List NodeId} (h : l.tighter.description c e ts ids left) :
    Built [e.outline] ts ids ∧ e.Each Expr.Canonical ∧ l.number < e.strength := by
  cases l <;> exact h

theorem Member.outlines_ne_nil (m : Member α) (a : α) : m.outlines a ≠ [] := by
  cases m <;> exact List.cons_ne_nil _ _

theorem Construct.moves_of_description {r : Construct α} {c : Cursor} {a : α} {ts left : List Token}
    {ids : List NodeId} (h : r.description c a ts ids left) (hmoves : r.moves = true) :
    ts ≠ [] := by
  cases r with
  | rest | listed | chain | body | declarations | result => cases hmoves
  | statementOf kind =>
    obtain ⟨os, hbuilt, hne, -⟩ := h
    exact hbuilt.ne_nil hne
  | typeSpec => exact h.1.ne_nil (by cases a <;> exact List.cons_ne_nil _ _)
  | separated m =>
    obtain ⟨b, bs, rfl⟩ := List.exists_cons_of_ne_nil h.2.1
    exact h.1.ne_nil (List.append_ne_nil_of_left_ne_nil (m.outlines_ne_nil b) _)
  | declaration =>
    obtain ⟨hbuilt, hne, -⟩ := h
    exact hbuilt.ne_nil (List.append_ne_nil_of_right_ne_nil _ (List.cons_ne_nil _ _))
  | program =>
    obtain ⟨-, ids', -, hbuilt, hne, -⟩ := h
    exact hbuilt.ne_nil fun hnil => hne (List.map_eq_nil_iff.1 hnil)
  | _ => exact h.1.ne_nil (List.cons_ne_nil _ _)

/-- Wherever a cursor comes to and a token is left, that token is passed. -/
def Readers.Passing (k : Readers) (c : Cursor) : Prop :=
  ∀ c', c.Before c' → c'.rest ≠ [] → k.advance.run c' = Parser.advance.run c'

/-- Two sets of readers that agree wherever a cursor comes to and a construct takes no more levels
of calls, and give what is described. -/
structure Readers.Agree (k k' : Readers) (c₀ : Cursor) (n : Nat) : Prop where
  passing : k.Passing c₀
  passing' : k'.Passing c₀
  parse : ∀ {α : Type} (r : Construct α) (c : Cursor), c₀.Before c → r.depth c ≤ n →
    Meets c (k.parse r) (k'.parse r) (r.description c)

/-- How deep a construct continues to be read when it is called by the grammar. -/
abbrev Readers.Steps (k k' : Readers) (c₀ : Cursor) (n : Nat) (r : Construct α) : Prop :=
  ∀ c, Continues c₀ n r.rank c (Built []) c (k.once r) (k'.once r) (r.description c)

namespace Readers.Agree

variable {k k' : Readers} {c₀ c₁ c : Cursor} {n g : Nat} {S : List Token → List NodeId → Prop}
  {os : List Outline} {o : α → List Outline} {V : α → Prop} {f f' : α → Parser β}
  {P : Description α} {Q : Description β}

theorem advance (hk : k.Agree k' c₀ n) {kind : TokenKind} {f f' : Unit → Parser β}
    (h : c.rest.head?.map Token.kind = some kind)
    (hf : ∀ c', Continues c₀ n 13 c₁ (Built (os ++ [.token kind])) c' (f ()) (f' ()) Q) :
    Continues c₀ n g c₁ (Built os) c (k.advance >>= f) (k'.advance >>= f') Q := by
  obtain ⟨t, ht, hkind⟩ := Option.map_eq_some_iff.1 h
  obtain ⟨rest, hrest⟩ := List.head?_eq_some_iff.1 ht
  have hne : c.rest ≠ [] := by rw [hrest]; exact List.cons_ne_nil t rest
  refine Continues.bind (b := true) (P := Outlined (fun _ => [.token kind]) fun _ => True)
    (fun _ _ => Built (os ++ [Outline.token kind])) (fun hbefore _ => ?_)
    (fun _ ts ids _ h _ => h.1.ne_nil (List.cons_ne_nil _ _))
    (fun _ us js ts ids _ hus h => hus.append h.1) fun _ c' => hf c'
  refine ⟨(hk.passing c hbefore hne).trans (hk.passing' c hbefore hne).symm, ?_, ?_⟩
  · rw [hk.passing' c hbefore hne, advance_run_cons hrest]
    exact ⟨[t], [], .token hrest, fun _ _ => ⟨built_token hkind, trivial⟩⟩
  · rw [hk.passing' c hbefore hne, advance_run_cons hrest]
    exact fun _ => nofun

theorem meets (hk : k.Agree k' c₀ n) {r : Construct α} (hr : r.rank < g) (hbefore : c₀.Before c)
    (hc : 13 * c.rest.length + g ≤ n + 1) : Meets c (k.parse r) (k'.parse r) (r.description c) :=
  hk.parse r c hbefore (by rw [Construct.depth]; omega)

/-- A construct is called, and what it gives is described by outlines. -/
theorem bind (hk : k.Agree k' c₀ n) {r : Construct α} (hr : r.rank < g)
    (hd : ∀ a ts ids left, r.description c a ts ids left → Built (o a) ts ids ∧ V a)
    (hf : ∀ a c', V a →
      Continues c₀ n (cond r.moves 13 g) c₁ (Built (os ++ o a)) c' (f a) (f' a) Q) :
    Continues c₀ n g c₁ (Built os) c (k.parse r >>= f) (k'.parse r >>= f') Q := by
  refine Continues.bind (fun a _ us js => Built (os ++ o a) us js ∧ V a) (hk.meets hr)
    (fun a ts ids left => Construct.moves_of_description) (fun a us js ts ids left hus ha => ?_)
    fun a c' us js hbefore hpass hs => hf a c' hs.2 us js hbefore hpass hs.1
  obtain ⟨hts, hv⟩ := hd a ts ids left ha
  exact ⟨hus.append hts, hv⟩

theorem call (hk : k.Agree k' c₀ n) {r : Construct α} (hr : r.rank < g)
    (hd : r.description = fun _ => Outlined o V)
    (hf : ∀ a c', V a →
      Continues c₀ n (cond r.moves 13 g) c₁ (Built (os ++ o a)) c' (f a) (f' a) Q) :
    Continues c₀ n g c₁ (Built os) c (k.parse r >>= f) (k'.parse r >>= f') Q :=
  hk.bind hr (fun a ts ids left h => by rwa [hd] at h) hf

/-- A call where a token has been passed. -/
theorem inner (hk : k.Agree k' c₀ n) {r : Construct α}
    (hd : r.description = fun _ => Outlined o V)
    (hf : ∀ a c', V a → Continues c₀ n 13 c₁ (Built (os ++ o a)) c' (f a) (f' a) Q) :
    Continues c₀ n 13 c₁ (Built os) c (k.parse r >>= f) (k'.parse r >>= f') Q :=
  hk.call r.rank_lt hd fun a c' ha => by
    cases r.moves with
    | true => exact hf a c' ha
    | false => exact hf a c' ha

theorem last (hk : k.Agree k' c₀ n) {r : Construct α} (hr : r.rank < g)
    (hQ : ∀ a us js ts ids left, c₁.Passes us js c → S us js → r.description c a ts ids left →
      P a (us ++ ts) (js ++ ids) left) :
    Continues c₀ n g c₁ S c (k.parse r) (k'.parse r) P := fun us js hbefore hpass hs hc =>
  (hk.meets hr (hpass.before hbefore) hc).imp fun a ts ids left _ =>
    hQ a us js ts ids left hpass hs

/-! ## Names and types -/

theorem token (hk : k.Agree k' c₀ n) (kind : TokenKind) : k.Steps k' c₀ n (.token kind) := by
  refine fun c => continues_peek? ?_
  split
  · rename_i h
    rw [← bind_pure k.advance, ← bind_pure k'.advance]
    exact hk.advance h fun c' => continues_given rfl trivial
  · exact continues_fail (by simp)

theorem name (hk : k.Agree k' c₀ n) : k.Steps k' c₀ n .name := by
  refine fun c => continues_peek? ?_
  split
  · rename_i name h
    refine continues_peek fun token ht => hk.advance h fun c₁ => ?_
    exact continues_node ht (List.cons_ne_nil _ _) (fun mark => rfl) fun mark => trivial
  · exact continues_fail (by simp)

theorem baseType (hk : k.Agree k' c₀ n) : k.Steps k' c₀ n .baseType := by
  refine fun c => continues_peek? ?_
  split
  · rename_i b h
    obtain ⟨kind, hkind, hb⟩ := Option.bind_eq_some_iff.1 h
    rw [BaseType.keyword_of_ofToken? hb] at hkind
    exact hk.advance hkind fun c₁ => continues_given rfl trivial
  · exact continues_fail (by simp)

theorem arraySize (hk : k.Agree k' c₀ n) : k.Steps k' c₀ n .arraySize := by
  refine fun c => continues_peek? ?_
  split
  · rename_i n h
    refine hk.advance h fun c₁ => ?_
    split
    · exact continues_fail (by simp)
    · have hsize : (n.toNat : Int) = n := Int.toNat_of_nonneg (by omega)
      exact continues_given (by rw [hsize]; rfl) (by omega)
  · exact continues_fail (by simp)

theorem typeSpec (hk : k.Agree k' c₀ n) : k.Steps k' c₀ n .typeSpec := by
  refine fun c => continues_peek? ?_
  split
  · rename_i h
    refine hk.advance h fun c₁ => hk.inner rfl fun _ c₂ _ => hk.inner rfl fun size c₃ hsize => ?_
    refine hk.inner rfl fun _ c₄ _ => hk.inner rfl fun _ c₅ _ => hk.inner rfl fun b c₆ _ => ?_
    exact continues_given rfl hsize
  · exact hk.call (by decide) rfl fun b c₁ _ => continues_given rfl trivial

theorem typeNote (hk : k.Agree k' c₀ n) : k.Steps k' c₀ n .typeNote := by
  refine fun c => continues_peek fun token ht => hk.call (by decide) rfl fun spec c₁ hspec => ?_
  have hne : [] ++ spec.kinds.map Outline.token ≠ [] := by
    cases spec <;> exact List.cons_ne_nil _ _
  exact continues_node ht hne (fun mark => rfl) fun mark => hspec

/-! ## Loops -/

theorem rest (hk : k.Agree k' c₀ n) (i : Item α) (items : List α) :
    k.Steps k' c₀ n (.rest i items) := by
  refine fun c => continues_peek? ?_
  split
  · rename_i hstop
    exact continues_pure fun us js h => ⟨[], (List.append_nil items).symm, h, nofun, hstop⟩
  · rename_i u h
    have hitem {c₁ c₂ : Cursor} {g : Nat} (hg : i.rank < g) :
        Continues c₀ n g c₁ (Built ([] ++ i.lead)) c₂ (do
          let next ← k.parse i.construct
          k.parse (.rest i (items ++ [next]))) (do
          let next ← k'.parse i.construct
          k'.parse (.rest i (items ++ [next]))) ((Construct.rest i items).description c) := by
      refine hk.bind (Nat.lt_of_lt_of_le i.rank_construct_lt hg)
        (fun _ _ _ _ => i.description_construct) fun next c₃ hnext => ?_
      rw [i.moves_construct]
      refine hk.last (Construct.rank_lt _) fun as us js ts ids left _ hus has => ?_
      obtain ⟨more, rfl, hmore, hvalid, hstop⟩ := has
      refine ⟨next :: more, by simp, ?_, List.forall_mem_cons.2 ⟨hnext, hvalid⟩, hstop⟩
      exact hus.append hmore
    cases hled : i.isLed with
    | true =>
      obtain ⟨kind, hkind, hfollows⟩ := Option.bind_eq_some_iff.1 h
      refine hk.advance hkind fun c₁ => ?_
      rw [← Item.lead_of_follows hled hfollows]
      exact hitem (Nat.lt_of_le_of_lt i.rank_le (by decide))
    | false =>
      have hlead : i.lead = [] := by cases i <;> first | rfl | cases hled
      rw [hlead] at hitem
      exact hitem (Nat.lt_succ_self _)

theorem separated (hk : k.Agree k' c₀ n) (m : Member α) : k.Steps k' c₀ n (.separated m) := by
  refine fun c => hk.bind m.rank_construct_lt (fun _ _ _ _ => m.description_construct)
    fun first c₁ hfirst => ?_
  rw [m.moves_construct]
  refine hk.last (Construct.rank_lt _) fun as us js ts ids left _ hus has => ?_
  obtain ⟨more, rfl, hmore, hvalid, -⟩ := has
  refine ⟨?_, List.cons_ne_nil _ _, List.forall_mem_cons.2 ⟨hfirst, hvalid⟩⟩
  have hcommas : more.flatMap (Item.member m).outlines =
      (more.map m.outlines).flatMap (.token (.symbol .comma) :: ·) := by
    rw [List.flatMap_map]
    rfl
  rw [hcommas] at hmore
  exact hus.append hmore

theorem listed (hk : k.Agree k' c₀ n) (m : Member α) : k.Steps k' c₀ n (.listed m) := by
  refine fun c => continues_peek? ?_
  split
  · exact continues_given rfl nofun
  · refine hk.last (r := .separated m) (Nat.lt_succ_self _) fun as us js ts ids left _ hus has => ?_
    exact ⟨hus.append has.1, has.2.2⟩

theorem chain (hk : k.Agree k' c₀ n) (l : Level) (lhs : Expr) :
    k.Steps k' c₀ n (.chain l lhs) := by
  refine fun c => continues_peek? ?_
  split
  · refine continues_pure fun us js h c₁ us' js' _ hlhs hcanonical => ?_
    obtain ⟨rfl, rfl⟩ := h.of_nil
    rw [List.append_nil, List.append_nil]
    exact ⟨hlhs, hcanonical⟩
  · rename_i op h
    obtain ⟨kind, hkind, hlevel⟩ := Option.bind_eq_some_iff.1 h
    obtain ⟨hnumber, rfl⟩ := operator?_eq_some.1 hlevel
    refine hk.advance hkind fun c₁ => hk.bind (Construct.rank_lt _)
      (fun _ _ _ _ => l.description_tighter) fun rhs c₂ hrhs => ?_
    rw [l.moves_tighter]
    -- The node begins where its left operand does, and that has been read before.
    intro us js hbefore hpass hs hc
    have hmark := (hpass.trans (.id c₂)).before hbefore
    refine Meets.of_id ((hk.meets (r := .chain l (.binary ⟨c₂.nextId, lhs.mark.start, c₂.lastStop⟩
      op lhs rhs)) (Construct.rank_lt _) hmark hc).imp fun e ts ids left _ he => ?_) rfl rfl
    intro c₁ us' js' hpass' hlhs hcanonical
    have hparts := hlhs.append hs
    have hpassed := hpass'.trans hpass
    have hnode := hparts.node (m := ⟨c₂.nextId, lhs.mark.start, c₂.lastStop⟩)
      (Expr.start_of_built hparts)
      (hpassed.stop (List.append_ne_nil_of_right_ne_nil _ (hs.ne_nil (List.cons_ne_nil _ _))))
    obtain ⟨hbuilt, hvalue⟩ :=
      he c₁ _ _ (List.append_nil (us' ++ us) ▸ hpassed.trans (.id c₂)) hnode
      ⟨Expr.each_binary.2
        ⟨⟨Expr.nested_binary.2 ⟨hnumber ▸ hcanonical.2, hnumber ▸ hrhs.2⟩, trivial⟩,
        hcanonical.1, hrhs.1⟩, Nat.le_of_eq hnumber⟩
    refine ⟨?_, hvalue⟩
    simpa only [List.append_assoc, List.singleton_append] using hbuilt

/-! ## Expressions -/

theorem index (hk : k.Agree k' c₀ n) : k.Steps k' c₀ n .index := by
  refine fun c => hk.call (by decide) rfl fun _ c₁ _ => hk.inner rfl fun i c₂ hi => ?_
  exact hk.inner rfl fun _ c₃ _ => continues_given rfl hi

theorem arguments (hk : k.Agree k' c₀ n) : k.Steps k' c₀ n .arguments := by
  refine fun c => hk.call (by decide) rfl fun _ c₁ _ => hk.inner rfl fun args c₂ hargs => ?_
  refine hk.inner rfl fun _ c₃ _ => continues_given ?_ hargs
  rw [Expr.outlines_eq_map]
  rfl

theorem callExpr (hk : k.Agree k' c₀ n) : k.Steps k' c₀ n .call := by
  refine fun c => hk.call (by decide) rfl fun callee c₁ _ => hk.inner rfl fun args c₂ hargs => ?_
  exact continues_given rfl hargs

theorem unmarkedPrimary (hk : k.Agree k' c₀ n) {kind : TokenKind}
    (h : c.rest.head?.map Token.kind = some kind) :
    Continues c₀ n 3 c (Built []) c (k.unmarkedPrimary kind) (k'.unmarkedPrimary kind)
      (Parts fun node os => ∀ mark : Mark, (node mark).outline = .node false mark os ∧
        (node mark).Each Expr.Canonical ∧ 6 ≤ (node mark).strength) := by
  have hne (o : Outline) (os : List Outline) : o :: os ≠ [] := List.cons_ne_nil o os
  unfold Readers.unmarkedPrimary
  split
  · rename_i l hl
    rw [token_of_literalOf? hl] at h
    refine hk.advance h fun c₁ => continues_parts (hne _ _) fun mark => ?_
    exact ⟨rfl, Expr.each_literal.2 ⟨trivial, trivial⟩, Nat.le_succ 6⟩
  · refine hk.advance h fun c₁ => hk.inner rfl fun args c₂ hargs => ?_
    split
    · exact continues_fail (by simp)
    · rename_i hfilled
      have hfilled : args ≠ [] := by simpa using hfilled
      refine continues_parts (hne _ _) fun mark => ⟨rfl, ?_, Nat.le_succ 6⟩
      exact Expr.each_max.2 ⟨⟨trivial, hfilled⟩, hargs⟩
  · refine continues_peekSecond? fun second => ?_
    split
    · refine hk.call (by decide) rfl fun call c₁ hargs => ?_
      refine continues_parts (hne _ _) fun mark => ⟨rfl, ?_, Nat.le_succ 6⟩
      exact Expr.each_call.2 ⟨⟨trivial, trivial⟩, hargs⟩
    · refine hk.call (by decide) rfl fun base c₁ _ => hk.inner rfl fun i c₂ hi => ?_
      refine continues_parts (hne _ _) fun mark => ⟨rfl, ?_, Nat.le_succ 6⟩
      exact Expr.each_element.2 ⟨⟨trivial, trivial⟩, hi⟩
    · refine hk.call (by decide) rfl fun name c₁ _ => ?_
      refine continues_parts (hne _ _) fun mark => ⟨rfl, ?_, Nat.le_succ 6⟩
      exact Expr.each_name.2 ⟨trivial, trivial⟩
  · refine hk.advance h fun c₁ => hk.inner rfl fun inner c₂ hinner => hk.inner rfl fun _ c₃ _ => ?_
    refine continues_parts (hne _ _) fun mark => ⟨rfl, ?_, Nat.le_succ 6⟩
    exact Expr.each_paren.2 ⟨⟨trivial, trivial⟩, hinner⟩
  · exact continues_fail (by simp)

theorem primary (hk : k.Agree k' c₀ n) : k.Steps k' c₀ n .primary := by
  refine fun c => continues_peek fun token ht => ?_
  have hkind : c.rest.head?.map Token.kind = some token.kind := by rw [ht]; rfl
  refine (hk.unmarkedPrimary hkind).bindParts fun node os c₁ hne hnode => ?_
  exact continues_node ht hne (fun mark => congrArg (fun o => [o]) (hnode mark).1)
    fun mark => (hnode mark).2

theorem operand (hk : k.Agree k' c₀ n) : k.Steps k' c₀ n .operand := by
  refine fun c => continues_peek fun token ht => ?_
  have hkind : c.rest.head?.map Token.kind = some token.kind := by rw [ht]; rfl
  split
  · rename_i op hop
    rw [UnaryOp.token_of_ofToken? hop] at hkind
    refine hk.advance hkind fun c₁ => hk.inner rfl fun inner c₂ hinner => ?_
    refine continues_node ht (List.cons_ne_nil _ _) (fun mark => rfl) fun mark => ?_
    exact ⟨Expr.each_unary.2 ⟨⟨Expr.nested_unary.2 hinner.2, trivial⟩, hinner.1⟩, Nat.le_refl 6⟩
  · refine hk.last (r := .primary) (by decide) fun e us js ts ids left _ hus he => ?_
    exact ⟨hus.append he.1, he.2⟩

theorem level (hk : k.Agree k' c₀ n) (l : Level) : k.Steps k' c₀ n (.level l) := by
  refine fun c => hk.bind l.rank_tighter_lt (fun _ _ _ _ => l.description_tighter)
    fun first c₁ hfirst => ?_
  rw [l.moves_tighter]
  refine hk.last (r := .chain l first) (Construct.rank_lt _)
    fun e us js ts ids left hpass hus he => ?_
  exact he c us js hpass hus ⟨hfirst.1, Nat.le_of_lt hfirst.2⟩

theorem expr (hk : k.Agree k' c₀ n) : k.Steps k' c₀ n .expr := fun c =>
  hk.last (r := .level .or) (by decide) fun _ _ _ _ _ _ _ hus he => ⟨hus.append he.1, he.2.1⟩

/-! ## Statements -/

theorem target (hk : k.Agree k' c₀ n) : k.Steps k' c₀ n .target := by
  refine fun c => continues_peek fun token ht => hk.call (by decide) rfl fun name c₁ _ => ?_
  refine continues_peek? ?_
  split
  · refine hk.inner rfl fun i c₂ hi => ?_
    exact continues_node ht (List.cons_ne_nil _ _) (fun mark => rfl) fun mark => hi
  · exact continues_node ht (List.cons_ne_nil _ _) (fun mark => rfl) fun mark => nofun

def closing (simple : Bool) : List Outline :=
  if simple then [.token (.symbol .semicolon)] else []

/-- A keyword of another statement than the one that stands there makes no difference to the
reading, but then what is read is no such statement. -/
theorem unmarkedStatement (hk : k.Agree k' c₀ n) (kind : TokenKind) {found : TokenKind}
    (h : c.rest.head?.map Token.kind = some found) :
    Continues c₀ n 3 c (Built []) c (k.unmarkedStatement kind) (k'.unmarkedStatement kind)
      (Parts fun r os => found = kind → ∀ mark : Mark,
        (r.2 mark).outline = .node false mark (os ++ closing r.1) ∧
          ∀ e ∈ (r.2 mark).exprs, e.Canonical) := by
  have hne (o : Outline) (os : List Outline) : o :: os ≠ [] := List.cons_ne_nil o os
  unfold Readers.unmarkedStatement
  split
  · refine hk.advance h fun c₁ => hk.inner rfl fun condition c₂ hcondition => ?_
    refine hk.inner rfl fun _ c₃ _ => hk.inner rfl fun yes c₄ hyes => continues_peek? ?_
    split
    · rename_i helse
      refine hk.advance helse fun c₅ => hk.inner rfl fun no c₆ hno => hk.inner rfl fun _ c₇ _ => ?_
      refine continues_parts (hne _ _) ?_
      rintro rfl mark
      refine ⟨by simp [closing, Stmt.outline], List.forall_mem_append.2 ⟨hcondition, ?_⟩⟩
      exact List.forall_mem_append.2 ⟨hyes, hno⟩
    · refine hk.inner rfl fun _ c₅ _ => continues_parts (hne _ _) ?_
      rintro rfl mark
      exact ⟨by simp [closing, Stmt.outline], List.forall_mem_append.2 ⟨hcondition, hyes⟩⟩
  · refine hk.advance h fun c₁ => hk.inner rfl fun condition c₂ hcondition => ?_
    refine hk.inner rfl fun _ c₃ _ => hk.inner rfl fun body c₄ hbody => ?_
    refine hk.inner rfl fun _ c₅ _ => continues_parts (hne _ _) ?_
    rintro rfl mark
    exact ⟨by simp [closing, Stmt.outline], List.forall_mem_append.2 ⟨hcondition, hbody⟩⟩
  · refine hk.advance h fun c₁ => hk.inner rfl fun control c₂ _ => hk.inner rfl fun _ c₃ _ => ?_
    refine hk.inner rfl fun _ c₄ _ => hk.inner rfl fun range c₅ hrange => ?_
    refine hk.inner rfl fun _ c₆ _ => hk.inner rfl fun body c₇ hbody => ?_
    refine hk.inner rfl fun _ c₈ _ => continues_parts (hne _ _) ?_
    rintro rfl mark
    refine ⟨by simp [closing, Stmt.outline], ?_⟩
    exact List.forall_mem_append.2 ⟨Expr.forall_mem_partsAll.2 hrange, hbody⟩
  · refine hk.advance h fun c₁ => hk.inner rfl fun place c₂ hplace => ?_
    refine continues_parts (hne _ _) ?_
    rintro rfl mark
    exact ⟨rfl, hplace⟩
  · refine hk.advance h fun c₁ => continues_peek? ?_
    split
    · rename_i raw htext
      refine hk.advance htext fun c₂ => continues_parts (hne _ _) ?_
      rintro rfl mark
      exact ⟨rfl, List.forall_mem_nil _⟩
    · refine hk.inner rfl fun value c₂ hvalue => continues_parts (hne _ _) ?_
      rintro rfl mark
      exact ⟨rfl, hvalue⟩
  · refine hk.advance h fun c₁ => continues_peek? ?_
    split
    · refine continues_parts (hne _ _) ?_
      rintro rfl mark
      exact ⟨rfl, List.forall_mem_nil _⟩
    · refine hk.inner rfl fun value c₂ hvalue => continues_parts (hne _ _) ?_
      rintro rfl mark
      exact ⟨rfl, hvalue⟩
  · refine continues_peekSecond? fun second => ?_
    split
    · refine hk.call (by decide) rfl fun call c₁ hargs => continues_parts (hne _ _) fun _ mark => ?_
      exact ⟨rfl, Expr.forall_mem_partsAll.2 hargs⟩
    all_goals first
      | exact continues_fail (by simp)
      | refine hk.call (by decide) rfl fun place c₁ hplace => hk.inner rfl fun _ c₂ _ => ?_
        refine hk.inner rfl fun value c₃ hvalue => continues_parts (hne _ _) fun _ mark => ?_
        exact ⟨rfl, List.forall_mem_append.2 ⟨hplace, hvalue⟩⟩
  · exact continues_fail (by simp)

theorem statementOf (hk : k.Agree k' c₀ n) (kind : TokenKind) :
    k.Steps k' c₀ n (.statementOf kind) := by
  refine fun c => continues_peek fun token ht => ?_
  have hkind : c.rest.head?.map Token.kind = some token.kind := by rw [ht]; rfl
  refine (hk.unmarkedStatement kind hkind).bindParts fun r os c₁ hne hr => ?_
  obtain ⟨simple, node⟩ := r
  have hnode {c₂ : Cursor} : Continues c₀ n 13 c (Built (os ++ closing simple)) c₂
      (do return node (← mark token.start)) (do return node (← mark token.start))
      ((Construct.statementOf kind).description c) := by
    have hne' : os ++ closing simple ≠ [] := List.append_ne_nil_of_left_ne_nil hne _
    refine continues_mark (fun ts ids hbuilt hpass => ?_) hne' fun mark c₃ _ => ?_
    · rw [hpass.head? (hbuilt.ne_nil hne'), ht]
      rfl
    refine continues_parts (List.cons_ne_nil _ _) fun hfound => ?_
    obtain ⟨houtline, hexprs⟩ := hr (Option.some.inj (hkind.symm.trans hfound)) mark
    exact ⟨congrArg (fun o => [o]) houtline.symm, hexprs⟩
  cases simple with
  | true => exact hk.inner rfl fun _ c₂ _ => hnode
  | false =>
    rw [← List.append_nil os]
    exact hnode

theorem statement (hk : k.Agree k' c₀ n) : k.Steps k' c₀ n .statement := by
  refine fun c => continues_peek fun token ht => ?_
  refine hk.last (r := .statementOf token.kind) (Nat.lt_succ_self 3)
    fun s us js ts ids left _ hus hs => ?_
  obtain ⟨os, hbuilt, -, hkind⟩ := hs
  obtain ⟨rfl, hexprs⟩ := hkind (by rw [ht]; rfl)
  exact ⟨hus.append hbuilt, hexprs⟩

theorem body (hk : k.Agree k' c₀ n) : k.Steps k' c₀ n .body := by
  refine fun c => hk.last (r := .rest .statement []) (by decide)
    fun ss us js ts ids left _ hus hss => ?_
  obtain ⟨more, rfl, hmore, hvalid, -⟩ := hss
  have houtlines : Stmt.outlines ss = ss.flatMap (Item.statement).outlines := by
    rw [Stmt.outlines_eq_map, List.map_eq_flatMap]
    rfl
  have hexprs : ∀ e ∈ Stmt.exprsAll ss, e.Canonical := by
    rw [Stmt.exprsAll_eq_flatMap]
    exact List.forall_mem_flatMap.2 hvalid
  exact ⟨houtlines ▸ hus.append hmore, hexprs⟩

/-! ## Functions and programs -/

theorem parameter (hk : k.Agree k' c₀ n) : k.Steps k' c₀ n .parameter := by
  refine fun c => hk.call (by decide) rfl fun name c₁ _ => hk.inner rfl fun _ c₂ _ => ?_
  exact hk.inner rfl fun t c₃ ht => continues_given rfl ht

theorem result (hk : k.Agree k' c₀ n) : k.Steps k' c₀ n .result := by
  refine fun c => continues_peek? ?_
  split
  · rename_i h
    refine hk.advance h fun c₁ => ?_
    have hnote : Continues c₀ n 13 c₁ (Built []) c₁ (do
        let token ← peek
        let b ← k.parse .baseType
        return some (⟨← mark token.start, .base b⟩ : TypeNote)) (do
        let token ← peek
        let b ← k'.parse .baseType
        return some (⟨← mark token.start, .base b⟩ : TypeNote))
        (Outlined (fun t => (t.map TypeNote.outline).toList)
          fun r => ∃ m b, r = some ⟨m, .base b⟩) := by
      refine continues_peek fun token ht => hk.inner rfl fun b c₂ _ => ?_
      exact continues_node ht (List.cons_ne_nil _ _) (fun mark => rfl) fun mark => ⟨mark, b, rfl⟩
    refine hnote.within fun r us js ts ids left hus hr => ?_
    obtain ⟨hbuilt, m, b, rfl⟩ := hr
    exact ⟨hus.append hbuilt, fun t ht => ⟨b, by cases ht; rfl⟩⟩
  · exact continues_given rfl nofun

theorem declaration (hk : k.Agree k' c₀ n) : k.Steps k' c₀ n .declaration := by
  refine fun c => hk.call (by decide) rfl fun names c₁ hnames => hk.inner rfl fun _ c₂ _ => ?_
  exact hk.inner rfl fun t c₃ ht => continues_given (List.append_assoc _ _ _) ⟨hnames.1, ht⟩

theorem declarations (hk : k.Agree k' c₀ n) : k.Steps k' c₀ n .declarations := by
  refine fun c => hk.last (r := .rest .declaration []) (by decide)
    fun ds us js ts ids left _ hus hds => ?_
  obtain ⟨more, rfl, hmore, hvalid, -⟩ := hds
  exact ⟨hus.append hmore, hvalid⟩

theorem function (hk : k.Agree k' c₀ n) : k.Steps k' c₀ n .function := by
  refine fun c => continues_peek fun token ht => continues_freshId fun c' hc' => ?_
  refine hk.call (by decide) rfl fun _ c₂ _ => hk.inner rfl fun name c₃ _ => ?_
  refine hk.inner rfl fun _ c₄ _ => hk.inner rfl fun params c₅ hparams => ?_
  refine hk.inner rfl fun _ c₆ _ => hk.inner rfl fun result c₇ hresult => ?_
  refine hk.inner rfl fun decls c₈ hdecls => hk.inner rfl fun stmts c₉ hstmts => ?_
  refine hk.inner rfl fun _ c₁₀ _ => continues_lastStop fun us js _ hpass hs _ => ?_
  have hne := hs.ne_nil (List.append_ne_nil_of_right_ne_nil _ (List.cons_ne_nil _ _))
  have hstart : us.head?.map Token.start = some token.start := by
    rw [hpass.head? hne, hc', ht]
    rfl
  have hnode := hs.nodeBefore (m := ⟨c.nextId, token.start, c₁₀.lastStop⟩) hstart (hpass.stop hne)
  refine meets_pure ⟨?_, fun e he => (hstmts e he).1, ?_⟩
  · have houtlines : Member.outlines .parameter = Parameter.outlines := rfl
    simpa [Function.outline, parens, houtlines] using hnode
  · exact ⟨hparams, hresult, fun d hd => (hdecls d hd).1, fun d hd => (hdecls d hd).2,
      fun e he => (hstmts e he).2⟩

theorem program (hk : k.Agree k' c₀ n) : k.Steps k' c₀ n .program := by
  refine fun c => continues_freshId fun c' _ => ?_
  refine Continues.bind (b := false) (fun fs left us js => left = [] ∧
    Built (fs.map Function.outline) us js ∧ ∀ f ∈ fs, (Item.function).Valid f)
    (hk.meets (r := .rest .function []) (by decide)) (fun _ _ _ _ _ => nofun)
    (fun fs us js ts ids left hus hfs => ?_) fun fs c₁ => ?_
  · obtain ⟨more, rfl, hmore, hvalid, hstop⟩ := hfs
    obtain ⟨rfl, rfl⟩ := hus.of_nil
    refine ⟨?_, List.map_eq_flatMap ▸ hmore, hvalid⟩
    cases left with
    | nil => rfl
    | cons t left => cases hstop
  · suffices h : c₁.rest = [] → (∀ f ∈ fs, (Item.function).Valid f) →
        Continues c₀ n 4 c' (Built (fs.map Function.outline)) c₁ (do
          atEnd
          if fs.isEmpty then fail .noFunction else return ⟨c.nextId, fs⟩) (do
          atEnd
          if fs.isEmpty then fail .noFunction else return ⟨c.nextId, fs⟩)
          fun p ts ids left => Construct.program.description c p ts (c.nextId :: ids) left from
      fun us js hbefore hpass hs => h hs.1 hs.2.2 us js hbefore hpass hs.2.1
    refine fun hend hvalid => continues_atEnd hend ?_
    split
    · exact continues_fail (by simp)
    · rename_i hne
      exact continues_pure fun ts ids hs => ⟨hend, ids, rfl, hs, by simpa using hne, hvalid⟩

/-- One level of calls deeper. -/
theorem next (hk : k.Agree k' c₀ n) : k.next.Agree k'.next c₀ (n + 1) := by
  refine ⟨hk.passing, hk.passing', fun r c hbefore hdepth => ?_⟩
  refine Continues.meets (n := n) (g := r.rank) ?_ hbefore hdepth
  cases r with
  | token kind => exact hk.token kind c
  | name => exact hk.name c
  | baseType => exact hk.baseType c
  | arraySize => exact hk.arraySize c
  | typeSpec => exact hk.typeSpec c
  | typeNote => exact hk.typeNote c
  | index => exact hk.index c
  | arguments => exact hk.arguments c
  | call => exact hk.callExpr c
  | separated m => exact hk.separated m c
  | listed m => exact hk.listed m c
  | rest i items => exact hk.rest i items c
  | primary => exact hk.primary c
  | operand => exact hk.operand c
  | level l => exact hk.level l c
  | chain l lhs => exact hk.chain l lhs c
  | expr => exact hk.expr c
  | target => exact hk.target c
  | statement => exact hk.statement c
  | statementOf kind => exact hk.statementOf kind c
  | body => exact hk.body c
  | parameter => exact hk.parameter c
  | result => exact hk.result c
  | declaration => exact hk.declaration c
  | declarations => exact hk.declarations c
  | function => exact hk.function c
  | program => exact hk.program c

end Readers.Agree

end Asl.Parser
