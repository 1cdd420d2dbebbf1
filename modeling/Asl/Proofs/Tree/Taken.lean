import Asl.Proofs.Tree.Unbounded

/-!
# What a parser makes of a tree's tokens

Where the tokens of a tree come next, a parser of its construct passes just these tokens if it gives
anything, and gives the tree but for the marks; it fails only if the tree is not formed. There is
one rule for each way in which parsers are put together, and one for the loop that collects items.
-/
namespace Asl

open Mark (erased)
open Outline (kindsAll)

theorem Expr.exists_cons_kinds (e : Expr) : ∃ k ks, e.kinds = k :: ks ∧
    k ≠ .symbol .rparen ∧ k ≠ .symbol .semicolon ∧ ∀ raw, k ≠ .text raw := by
  induction e using Expr.ind with
  | literal m v => exact ⟨v.token, [], rfl, by cases v <;> simp [Literal.token]⟩
  | unary m op operand ih =>
    exact ⟨op.token, operand.kinds, rfl, by cases op <;> simp [UnaryOp.token]⟩
  | binary m op lhs rhs ihl ihr =>
    obtain ⟨k, ks, hk, h⟩ := ihl
    exact ⟨k, ks ++ op.token :: rhs.kinds, by rw [kinds, hk]; rfl, h⟩
  | _ => exact ⟨_, _, rfl, by simp⟩

theorem Target.exists_cons_kinds (t : Target) : ∃ x ks, t.kinds = .ident x :: ks := by
  cases t with
  | name m x => exact ⟨x.name, [], rfl⟩
  | element m base index => exact ⟨base.name, inBrackets index.kinds, rfl⟩

theorem Stmt.exists_cons_kinds (s : Stmt) : ∃ k ks, s.kinds = k :: ks ∧
    Parser.closes k = false ∧ k ≠ .keyword .var ∧ k ≠ .symbol .colon := by
  cases s with
  | assign m target value =>
    obtain ⟨x, ks, hx⟩ := target.exists_cons_kinds
    exact ⟨.ident x, _, by rw [kinds, hx]; rfl, by simp [Parser.closes]⟩
  | ret m value => cases value <;> exact ⟨_, _, rfl, by simp [Parser.closes]⟩
  | _ => exact ⟨_, _, rfl, by simp [Parser.closes]⟩

namespace Parser

open Attempt (fail)

variable {α β γ : Type} {formed : Prop} {c : Cursor} {rest : List TokenKind}

/-- A parser that gives something gives the right thing and leaves the right tokens; and it gives
something if what is to be read is formed. -/
structure Takes (formed : Prop) (c : Cursor) (m : Parser α) (rest : List TokenKind)
    (P : α → Prop) : Prop where
  right : ∀ a c', m.run c = (.ok a, c') → c'.kinds = rest ∧ P a
  given : formed → ∃ a c', m.run c = (.ok a, c')

section

variable {m : Parser α} {f : α → Parser β} {P : α → Prop} {Q : β → Prop} {k : TokenKind}
  {ks : List TokenKind}

theorem Takes.bind {l : List TokenKind} (hm : Takes formed c m l P)
    (hf : ∀ a c', c'.kinds = l → P a → Takes formed c' (f a) rest Q) :
    Takes formed c (m >>= f) rest Q where
  right := by
    intro b c' hrun
    obtain ⟨a, c₁, hrun₁, hrest⟩ := Attempt.run_bind_eq_ok.1 hrun
    obtain ⟨hkinds, ha⟩ := hm.right a c₁ hrun₁
    exact (hf a c₁ hkinds ha).right b c' hrest
  given := by
    intro hformed
    obtain ⟨a, c₁, hrun₁⟩ := hm.given hformed
    obtain ⟨hkinds, ha⟩ := hm.right a c₁ hrun₁
    obtain ⟨b, c', hrest⟩ := (hf a c₁ hkinds ha).given hformed
    exact ⟨b, c', Attempt.run_bind_eq_ok.2 ⟨a, c₁, hrun₁, hrest⟩⟩

theorem Takes.of_formed {formed' : Prop} (hm : Takes formed' c m rest P)
    (h : formed → formed') : Takes formed c m rest P :=
  ⟨hm.right, fun hformed => hm.given (h hformed)⟩

theorem Takes.mono {P' : α → Prop} (hm : Takes formed c m rest P) (h : ∀ a, P a → P' a) :
    Takes formed c m rest P' :=
  ⟨fun a c' hrun => ⟨(hm.right a c' hrun).1, h a (hm.right a c' hrun).2⟩, hm.given⟩

theorem takes_pure {a : α} (hc : c.kinds = rest) (h : P a) : Takes formed c (pure a) rest P where
  right := by
    intro a' c' hrun
    cases hrun
    exact ⟨hc, h⟩
  given := fun _ => ⟨a, c, rfl⟩

theorem takes_fail {e : ParseError} (h : ¬formed) : Takes formed c (fail e) rest P where
  right := by
    intro a c' hrun
    cases hrun
  given := fun hformed => absurd hformed h

theorem takes_peek? {f : Option TokenKind → Parser β}
    (h : Takes formed c (f c.kinds.head?) rest Q) : Takes formed c (peek? >>= f) rest Q := by
  rw [Cursor.kinds, List.head?_map] at h
  exact ⟨h.right, h.given⟩

theorem takes_peekSecond? {f : Option TokenKind → Parser β} (hc : c.kinds = k :: ks)
    (h : Takes formed c (f ks.head?) rest Q) : Takes formed c (peekSecond? >>= f) rest Q := by
  have hsecond : (c.rest.drop 1).head?.map Token.kind = ks.head? := by
    rw [← List.head?_map, List.map_drop]
    change (c.kinds.drop 1).head? = _
    rw [hc, List.drop_one, List.tail_cons]
  rw [← hsecond] at h
  exact ⟨h.right, h.given⟩

theorem exists_rest_of_kinds (hc : c.kinds = k :: ks) :
    ∃ t ts, c.rest = t :: ts ∧ t.kind = k ∧ ts.map Token.kind = ks := by
  obtain ⟨t, ts, hrest, hk, hks⟩ := List.map_eq_cons_iff.1 hc
  exact ⟨t, ts, hrest, hk, hks⟩

theorem takes_peek {f : Token → Parser β} (hc : c.kinds = k :: ks)
    (h : ∀ t, t.kind = k → Takes formed c (f t) rest Q) : Takes formed c (peek >>= f) rest Q := by
  obtain ⟨t, ts, hrest, hk, -⟩ := exists_rest_of_kinds hc
  have hrun : (peek >>= f).run c = (f t).run c := by
    rw [Attempt.run_bind, peek_run_cons hrest]
  exact ⟨by rw [hrun]; exact (h t hk).right, by rw [hrun]; exact (h t hk).given⟩

theorem takes_advance {f : Unit → Parser β} (hc : c.kinds = k :: ks)
    (h : ∀ c', c'.kinds = ks → Takes formed c' (f ()) rest Q) :
    Takes formed c (advance >>= f) rest Q := by
  obtain ⟨t, ts, hrest, -, hks⟩ := exists_rest_of_kinds hc
  have hrun : (advance >>= f).run c = (f ()).run { c with rest := ts, lastStop := t.stop } := by
    rw [Attempt.run_bind, advance_run_cons hrest]
  have htakes := h { c with rest := ts, lastStop := t.stop } hks
  exact ⟨by rw [hrun]; exact htakes.right, by rw [hrun]; exact htakes.given⟩

theorem takes_expect {f : Unit → Parser β} (hc : c.kinds = k :: ks)
    (h : ∀ c', c'.kinds = ks → Takes formed c' (f ()) rest Q) :
    Takes formed c (expect k >>= f) rest Q := by
  rw [expect, bind_assoc]
  refine takes_peek? ?_
  rw [if_pos (by rw [hc, List.head?_cons])]
  exact takes_advance hc h

theorem takes_mark {start : Nat} {f : Mark → Parser β}
    (h : ∀ m c', c'.kinds = c.kinds → Takes formed c' (f m) rest Q) :
    Takes formed c (mark start >>= f) rest Q :=
  have htakes := h ⟨c.nextId, start, c.lastStop⟩ { c with nextId := c.nextId + 1 } rfl
  ⟨htakes.right, htakes.given⟩

theorem takes_freshId {f : NodeId → Parser β}
    (h : ∀ id c', c'.kinds = c.kinds → Takes formed c' (f id) rest Q) :
    Takes formed c (freshId >>= f) rest Q :=
  have htakes := h c.nextId { c with nextId := c.nextId + 1 } rfl
  ⟨htakes.right, htakes.given⟩

theorem takes_lastStop {f : Nat → Parser β} (h : ∀ n, Takes formed c (f n) rest Q) :
    Takes formed c (lastStop >>= f) rest Q :=
  ⟨(h c.lastStop).right, (h c.lastStop).given⟩

end

theorem takes_step {i : Item α} {f : α → γ} {x : α} {ks ks' : List TokenKind} {items : List α}
    (hitem : ∀ c', c'.kinds = ks ++ ks' → Takes formed c' i.parser ks' fun a => f a = f x)
    (hc : c.kinds = kindsAll i.lead ++ (ks ++ ks')) :
    Takes formed c (i.step items) ks' fun as => as.map f = items.map f ++ [f x] := by
  have htakes {c : Cursor} (hc : c.kinds = ks ++ ks') : Takes formed c (do
      let next ← i.parser
      return items ++ [next]) ks' fun as => as.map f = items.map f ++ [f x] := by
    refine (hitem c hc).bind fun a c' hc' ha => takes_pure hc' ?_
    rw [List.map_append, List.map_singleton, ha]
  cases i with
  | member m => exact takes_advance hc fun c' hc' => htakes hc'
  | declaration => exact takes_advance hc fun c' hc' => htakes hc'
  | statement => exact htakes hc
  | function => exact htakes hc

/-- A loop passes the tokens of one item after the other. The values are compared by a function that
forgets what the tokens do not say. -/
theorem takes_rest {i : Item α} {g : α → List TokenKind} {f : α → γ} {A : List TokenKind → Prop}
    {xs : List α}
    (hopens : ∀ x ∈ xs, ∀ ks, (kindsAll i.lead ++ (g x ++ ks)).head?.bind i.follows = some ())
    (hafter : ∀ x ∈ xs, ∀ ks, A (kindsAll i.lead ++ (g x ++ ks)))
    (hitem : ∀ x ∈ xs, ∀ c ks, c.kinds = g x ++ ks → A ks →
      Takes formed c i.parser ks fun a => f a = f x)
    (hrest : A rest) (hstop : rest.head?.bind i.follows = none) {items : List α}
    (hc : c.kinds = xs.flatMap (fun x => kindsAll i.lead ++ g x) ++ rest) :
    Takes formed c (Construct.rest i items).parser rest fun as =>
      as.map f = items.map f ++ xs.map f := by
  change Takes formed c (whileNext i.follows (fun _ => i.step) items) rest _
  induction xs generalizing c items with
  | nil =>
    rw [i.loops items]
    refine takes_peek? ?_
    rw [hc, List.flatMap_nil, List.nil_append, hstop]
    exact takes_pure hc (by simp)
  | cons x xs ih =>
    obtain ⟨hopen, hopens⟩ := List.forall_mem_cons.1 hopens
    obtain ⟨-, hafter'⟩ := List.forall_mem_cons.1 hafter
    obtain ⟨hfirst, hitem⟩ := List.forall_mem_cons.1 hitem
    rw [List.flatMap_cons, List.append_assoc, List.append_assoc] at hc
    have hfollow : A (xs.flatMap (fun x => kindsAll i.lead ++ g x) ++ rest) := by
      cases xs with
      | nil => exact hrest
      | cons y ys =>
        rw [List.flatMap_cons, List.append_assoc, List.append_assoc]
        exact hafter' y List.mem_cons_self _
    rw [i.loops items]
    refine takes_peek? ?_
    rw [hc, hopen]
    refine (takes_step (fun c' hc' => hfirst c' _ hc' hfollow) hc).bind fun items' c' hc' h => ?_
    refine (ih hopens hafter' hitem hc').mono fun as has => ?_
    rw [has, h, List.append_assoc]
    rfl

theorem takes_items {i : Item α} {g : α → List TokenKind} {f : α → γ} {xs : List α}
    (hopens : ∀ x ∈ xs, ∀ ks, (kindsAll i.lead ++ (g x ++ ks)).head?.bind i.follows = some ())
    (hitem : ∀ x ∈ xs, ∀ c ks, c.kinds = g x ++ ks → Takes formed c i.parser ks fun a => f a = f x)
    (hstop : rest.head?.bind i.follows = none)
    (hc : c.kinds = xs.flatMap (fun x => kindsAll i.lead ++ g x) ++ rest) :
    Takes formed c (whileNext i.follows (fun _ => i.step) []) rest fun as =>
      as.map f = xs.map f := by
  have htakes : Takes formed c (Construct.rest i []).parser rest fun as =>
      as.map f = [].map f ++ xs.map f :=
    takes_rest (A := fun _ => True) hopens (fun _ _ _ => trivial)
      (fun x hx c ks hc _ => hitem x hx c ks hc) trivial hstop hc
  exact htakes

section

variable {m : Member α} {g : α → List TokenKind} {f : α → γ} {A : List TokenKind → Prop}
  {xs : List α}

theorem takes_separated
    (hitem : ∀ x ∈ xs, ∀ c ks, c.kinds = g x ++ ks → A ks →
      Takes formed c m.parser ks fun a => f a = f x)
    (hcomma : ∀ ks, A (.symbol .comma :: ks)) (hrest : A rest)
    (hstop : rest.head? ≠ some (.symbol .comma)) (hne : xs ≠ [])
    (hc : c.kinds = commaSeparated (xs.map g) ++ rest) :
    Takes formed c (separated m.parser) rest fun as => as.map f = xs.map f := by
  cases xs with
  | nil => exact absurd rfl hne
  | cons x xs =>
    obtain ⟨hfirst, hitem⟩ := List.forall_mem_cons.1 hitem
    have hfollow : A (xs.flatMap (fun y => .symbol .comma :: g y) ++ rest) := by
      cases xs with
      | nil => exact hrest
      | cons y ys => exact hcomma _
    rw [List.map_cons, commaSeparated, List.flatMap_map, List.append_assoc] at hc
    refine (hfirst c _ hc hfollow).bind fun first c' hc' hx => ?_
    change Takes formed c' (Construct.rest (.member m) [first]).parser rest _
    refine (takes_rest (i := .member m) (f := f) (A := A) (fun _ _ _ => rfl)
      (fun _ _ _ => hcomma _) hitem hrest ?_ hc').mono fun as has => ?_
    · cases hhead : rest.head? with
      | none => rfl
      | some k =>
        have hk : k ≠ .symbol .comma := fun h => hstop (by rw [hhead, h])
        exact if_neg hk
    · rw [has, List.map_singleton, hx]
      rfl

theorem takes_listed
    (hitem : ∀ x ∈ xs, ∀ c ks, c.kinds = g x ++ ks → A ks →
      Takes formed c m.parser ks fun a => f a = f x)
    (hhead : ∀ x ∈ xs, ∃ k ks, g x = k :: ks ∧ k ≠ .symbol .rparen)
    (hcomma : ∀ ks, A (.symbol .comma :: ks)) (hclose : ∀ ks, A (.symbol .rparen :: ks))
    (hc : c.kinds = commaSeparated (xs.map g) ++ .symbol .rparen :: rest) :
    Takes formed c (listed m.parser) (.symbol .rparen :: rest) fun as => as.map f = xs.map f := by
  refine takes_peek? ?_
  by_cases hne : xs = []
  · subst hne
    rw [if_pos (by rw [hc]; rfl)]
    exact takes_pure hc rfl
  · rw [if_neg]
    · exact takes_separated hitem hcomma (hclose _) (by simp) hne hc
    · cases xs with
      | nil => exact absurd rfl hne
      | cons x xs =>
        obtain ⟨k, ks, hk, hparen⟩ := hhead x List.mem_cons_self
        rw [hc, List.map_cons, commaSeparated, hk]
        exact fun h => hparen (Option.some.inj h)

end

theorem takes_ident {x : String} (hc : c.kinds = .ident x :: rest) :
    Takes formed c ident rest fun y => y.name = x := by
  refine takes_peek? ?_
  rw [hc, List.head?_cons]
  refine takes_peek hc fun t _ => takes_advance hc fun c' hc' => ?_
  exact takes_mark fun m c'' hc'' => takes_pure (hc''.trans hc') rfl

theorem takes_baseType {b : BaseType} (hc : c.kinds = .keyword b.keyword :: rest) :
    Takes formed c baseType rest fun b' => b' = b := by
  refine takes_peek? ?_
  rw [hc, List.head?_cons]
  cases b <;> exact takes_advance hc fun c' hc' => takes_pure hc' rfl

theorem takes_arraySize {size : Nat} (hc : c.kinds = .int size :: rest) :
    Takes (1 ≤ size) c arraySize rest fun n => n = size := by
  refine takes_peek? ?_
  rw [hc, List.head?_cons]
  refine takes_advance hc fun c' hc => ?_
  by_cases hsize : (size : Int) ≤ 0
  · rw [if_pos hsize]
    exact takes_fail (by omega)
  · rw [if_neg hsize]
    exact takes_pure hc (Int.toNat_natCast size)

theorem takes_typeSpec {t : TypeSpec} (hc : c.kinds = t.kinds ++ rest) :
    Takes t.Sized c typeSpec rest fun t' => t' = t := by
  refine takes_peek? ?_
  cases t with
  | base b =>
    rw [if_neg (by rw [hc]; cases b <;> simp [TypeSpec.kinds, BaseType.keyword])]
    exact (takes_baseType hc).bind fun b' c' hc' h => takes_pure hc' (by rw [h])
  | array size elem =>
    rw [if_pos (by rw [hc]; rfl)]
    refine takes_advance hc fun c' hc => takes_expect hc fun c' hc => ?_
    refine (takes_arraySize hc).bind fun n c' hc hn => ?_
    refine takes_expect hc fun c' hc => takes_expect hc fun c' hc => ?_
    exact (takes_baseType hc).bind fun b' c' hc' h => takes_pure hc' (by rw [h, hn])

theorem takes_typeNote {t : TypeNote} (hc : c.kinds = t.spec.kinds ++ rest) :
    Takes t.spec.Sized c typeNote rest fun t' => t'.mapMark erased = t.mapMark erased := by
  have hcons : ∃ k ks, t.spec.kinds = k :: ks := by cases t.spec <;> exact ⟨_, _, rfl⟩
  obtain ⟨k, ks, hk⟩ := hcons
  have hhead : c.kinds = k :: (ks ++ rest) := by rw [hc, hk]; rfl
  refine takes_peek hhead fun token _ => (takes_typeSpec hc).bind fun spec c' hc' h => ?_
  subst h
  exact takes_mark fun m c'' hc'' => takes_pure (hc''.trans hc') rfl

end Parser

end Asl
