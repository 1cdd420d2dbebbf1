import Asl.Proofs.Tree.Nodes
import Asl.Tree.Grammar
import Asl.Tree.Printer

/-!
# What a tree says of its tokens

A tree flattens to the kinds of the tokens that it stands for, with its own parentheses and no
others. A tree is well nested if no operator stands bare where it binds too loosely, and formed if
it has what every token list of the language has: a function, operands of a maximum, names to
declare, array sizes above zero and base types as results. Marks say nothing of the tokens, and two
trees that are equal but for their marks are equal once their marks are blank.
-/
namespace Asl

def commaSeparated : List (List TokenKind) → List TokenKind
  | [] => []
  | ks :: kss => ks ++ kss.flatMap (.symbol .comma :: ·)

theorem commaSeparated_cons_cons (ks ks' : List TokenKind) (kss : List (List TokenKind)) :
    commaSeparated (ks :: ks' :: kss) = ks ++ .symbol .comma :: commaSeparated (ks' :: kss) := by
  simp [commaSeparated]

theorem commaSeparated_singleton (ks : List TokenKind) : commaSeparated [ks] = ks := by
  simp [commaSeparated]

theorem commaSeparated_map_cons {α : Type} {g : α → List TokenKind} {x : α} {xs : List α}
    (h : xs ≠ []) : commaSeparated ((x :: xs).map g) =
      g x ++ .symbol .comma :: commaSeparated (xs.map g) := by
  cases xs with
  | nil => exact absurd rfl h
  | cons y ys => exact commaSeparated_cons_cons (g x) (g y) (ys.map g)

theorem commaSeparated_induct {α : Type} {g : α → List TokenKind} {P : List TokenKind → Prop}
    {xs : List α} (one : ∀ x ∈ xs, P (g x))
    (more : ∀ x ∈ xs, ∀ ks, P ks → P (g x ++ .symbol .comma :: ks)) (h : xs ≠ []) :
    P (commaSeparated (xs.map g)) := by
  induction xs with
  | nil => exact absurd rfl h
  | cons x xs ih =>
    cases xs with
    | nil =>
      rw [List.map_singleton, commaSeparated_singleton]
      exact one x List.mem_cons_self
    | cons y ys =>
      rw [List.map_cons, List.map_cons, commaSeparated_cons_cons]
      refine more x List.mem_cons_self _ (ih (fun z hz => one z ?_) (fun z hz => more z ?_) ?_)
      · exact List.mem_cons_of_mem _ hz
      · exact List.mem_cons_of_mem _ hz
      · exact List.cons_ne_nil _ _

theorem mem_commaSeparated {k : TokenKind} {kss : List (List TokenKind)} {ks : List TokenKind}
    (hks : ks ∈ kss) (hk : k ∈ ks) : k ∈ commaSeparated kss := by
  cases kss with
  | nil => cases hks
  | cons ks' kss =>
    rcases List.mem_cons.1 hks with rfl | hks
    · exact List.mem_append_left _ hk
    · exact List.mem_append_right _ (List.mem_flatMap.2 ⟨ks, hks, List.mem_cons_of_mem _ hk⟩)

def inParens (ks : List TokenKind) : List TokenKind :=
  .symbol .lparen :: (ks ++ [.symbol .rparen])

def inBrackets (ks : List TokenKind) : List TokenKind :=
  .symbol .lbracket :: (ks ++ [.symbol .rbracket])

mutual

def Expr.kinds : Expr → List TokenKind
  | .literal _ value => [value.token]
  | .name _ x => [.ident x.name]
  | .element _ base index => .ident base.name :: inBrackets index.kinds
  | .call _ callee args => .ident callee.name :: inParens (commaSeparated (Expr.kindsAll args))
  | .paren _ inner => inParens inner.kinds
  | .unary _ op operand => op.token :: operand.kinds
  | .binary _ op lhs rhs => lhs.kinds ++ op.token :: rhs.kinds
  | .max _ args => .keyword .max :: inParens (commaSeparated (Expr.kindsAll args))

def Expr.kindsAll : List Expr → List (List TokenKind)
  | [] => []
  | e :: es => e.kinds :: Expr.kindsAll es

end

theorem Expr.kindsAll_eq_map (es : List Expr) : Expr.kindsAll es = es.map Expr.kinds := by
  induction es with
  | nil => rfl
  | cons e es ih => rw [Expr.kindsAll, ih, List.map_cons]

def Target.kinds : Target → List TokenKind
  | .name _ x => [.ident x.name]
  | .element _ base index => .ident base.name :: inBrackets index.kinds

mutual

def Stmt.kinds : Stmt → List TokenKind
  | .assign _ target value =>
      target.kinds ++ .symbol .assign :: (value.kinds ++ [.symbol .semicolon])
  | .ifThen _ condition body =>
      .keyword .if :: (condition.kinds ++ .keyword .then :: (Stmt.kindsAll body ++
        [.keyword .endif]))
  | .ifElse _ condition body otherwise =>
      .keyword .if :: (condition.kinds ++ .keyword .then :: (Stmt.kindsAll body ++
        .keyword .else :: (Stmt.kindsAll otherwise ++ [.keyword .endif])))
  | .while _ condition body =>
      .keyword .while :: (condition.kinds ++ .keyword .do :: (Stmt.kindsAll body ++
        [.keyword .endwhile]))
  | .for _ control range body =>
      .keyword .for :: .ident control.name :: .keyword .in :: .keyword .range ::
        (inParens (commaSeparated (range.map Expr.kinds)) ++ .keyword .do ::
          (Stmt.kindsAll body ++ [.keyword .endfor]))
  | .call _ callee args =>
      .ident callee.name :: (inParens (commaSeparated (args.map Expr.kinds)) ++
        [.symbol .semicolon])
  | .read _ target => .keyword .read :: (target.kinds ++ [.symbol .semicolon])
  | .write _ value => .keyword .write :: (value.kinds ++ [.symbol .semicolon])
  | .writeText _ raw => [.keyword .write, .text raw, .symbol .semicolon]
  | .ret _ none => [.keyword .return, .symbol .semicolon]
  | .ret _ (some value) => .keyword .return :: (value.kinds ++ [.symbol .semicolon])

def Stmt.kindsAll : List Stmt → List TokenKind
  | [] => []
  | s :: ss => s.kinds ++ Stmt.kindsAll ss

end

theorem Stmt.kindsAll_eq_flatMap (ss : List Stmt) : Stmt.kindsAll ss = ss.flatMap Stmt.kinds := by
  induction ss with
  | nil => rfl
  | cons s ss ih => rw [Stmt.kindsAll, ih, List.flatMap_cons]

example (m : Mark) (f x : Ident) : Stmt.kindsAll [.call m f [.name m x, .name m x]] =
    [.ident f.name, .symbol .lparen, .ident x.name, .symbol .comma, .ident x.name, .symbol .rparen,
      .symbol .semicolon] := by cbv

def TypeSpec.kinds : TypeSpec → List TokenKind
  | .base b => [.keyword b.keyword]
  | .array size elem =>
      [.keyword .array, .symbol .lbracket, .int size, .symbol .rbracket, .keyword .of,
        .keyword elem.keyword]

def Parameter.kinds (p : Parameter) : List TokenKind :=
  .ident p.name.name :: .symbol .colon :: p.type.spec.kinds

def Declaration.kinds (d : Declaration) : List TokenKind :=
  .keyword .var :: (commaSeparated (d.names.map fun x => [.ident x.name]) ++
    .symbol .colon :: d.type.spec.kinds)

def TypeNote.resultKinds : Option TypeNote → List TokenKind
  | none => []
  | some t => .symbol .colon :: t.spec.kinds

def Function.kinds (f : Function) : List TokenKind :=
  .keyword .func :: .ident f.name.name ::
    (inParens (commaSeparated (f.params.map Parameter.kinds)) ++
      (TypeNote.resultKinds f.result ++ (f.declarations.flatMap Declaration.kinds ++
        (Stmt.kindsAll f.body ++ [.keyword .endfunc]))))

def Program.kinds (p : Program) : List TokenKind := p.functions.flatMap Function.kinds

mutual

def Expr.parts : Expr → List Expr
  | .literal m value => [.literal m value]
  | .name m x => [.name m x]
  | .element m base index => .element m base index :: index.parts
  | .call m callee args => .call m callee args :: Expr.partsAll args
  | .paren m inner => .paren m inner :: inner.parts
  | .unary m op operand => .unary m op operand :: operand.parts
  | .binary m op lhs rhs => .binary m op lhs rhs :: (lhs.parts ++ rhs.parts)
  | .max m args => .max m args :: Expr.partsAll args

def Expr.partsAll : List Expr → List Expr
  | [] => []
  | e :: es => e.parts ++ Expr.partsAll es

end

theorem Expr.partsAll_eq_flatMap (es : List Expr) : Expr.partsAll es = es.flatMap Expr.parts := by
  induction es with
  | nil => rfl
  | cons e es ih => rw [Expr.partsAll, ih, List.flatMap_cons]

example (m : Mark) (x y : Ident) : Expr.partsAll [.paren m (.name m x), .name m y] =
    [.paren m (.name m x), .name m x, .name m y] := by cbv

def Expr.Each (P : Expr → Prop) (e : Expr) : Prop := ∀ x ∈ e.parts, P x

section

variable {P : Expr → Prop} {m : Mark}

@[simp] theorem Expr.each_literal {v : Literal} :
    (Expr.literal m v).Each P ↔ P (.literal m v) := by simp [Expr.Each, Expr.parts]

@[simp] theorem Expr.each_name {x : Ident} : (Expr.name m x).Each P ↔ P (.name m x) := by
  simp [Expr.Each, Expr.parts]

@[simp] theorem Expr.each_element {base : Ident} {index : Expr} :
    (Expr.element m base index).Each P ↔ P (.element m base index) ∧ index.Each P := by
  simp [Expr.Each, Expr.parts]

theorem Expr.forall_mem_partsAll {es : List Expr} :
    (∀ x ∈ Expr.partsAll es, P x) ↔ ∀ e ∈ es, e.Each P := by
  rw [Expr.partsAll_eq_flatMap]
  simp only [List.mem_flatMap, forall_exists_index, and_imp, Expr.Each]
  exact ⟨fun h e he x hx => h x e he hx, fun h x e he hx => h e he x hx⟩

@[simp] theorem Expr.each_call {callee : Ident} {args : List Expr} :
    (Expr.call m callee args).Each P ↔ P (.call m callee args) ∧ ∀ e ∈ args, e.Each P := by
  rw [← Expr.forall_mem_partsAll, Expr.Each, Expr.parts, List.forall_mem_cons]

@[simp] theorem Expr.each_paren {inner : Expr} :
    (Expr.paren m inner).Each P ↔ P (.paren m inner) ∧ inner.Each P := by
  simp [Expr.Each, Expr.parts]

@[simp] theorem Expr.each_unary {op : UnaryOp} {operand : Expr} :
    (Expr.unary m op operand).Each P ↔ P (.unary m op operand) ∧ operand.Each P := by
  simp [Expr.Each, Expr.parts]

@[simp] theorem Expr.each_binary {op : BinaryOp} {lhs rhs : Expr} :
    (Expr.binary m op lhs rhs).Each P ↔
      P (.binary m op lhs rhs) ∧ lhs.Each P ∧ rhs.Each P := by
  rw [Expr.Each, Expr.parts, List.forall_mem_cons, List.forall_mem_append]
  rfl

@[simp] theorem Expr.each_max {args : List Expr} :
    (Expr.max m args).Each P ↔ P (.max m args) ∧ ∀ e ∈ args, e.Each P := by
  rw [← Expr.forall_mem_partsAll, Expr.Each, Expr.parts, List.forall_mem_cons]

end

def Target.exprs : Target → List Expr
  | .name _ _ => []
  | .element _ _ index => index.parts

mutual

def Stmt.exprs : Stmt → List Expr
  | .assign _ target value => target.exprs ++ value.parts
  | .ifThen _ condition body => condition.parts ++ Stmt.exprsAll body
  | .ifElse _ condition body otherwise =>
      condition.parts ++ (Stmt.exprsAll body ++ Stmt.exprsAll otherwise)
  | .while _ condition body => condition.parts ++ Stmt.exprsAll body
  | .for _ _ range body => Expr.partsAll range ++ Stmt.exprsAll body
  | .call _ _ args => Expr.partsAll args
  | .read _ target => target.exprs
  | .write _ value => value.parts
  | .writeText _ _ => []
  | .ret _ none => []
  | .ret _ (some value) => value.parts

def Stmt.exprsAll : List Stmt → List Expr
  | [] => []
  | s :: ss => s.exprs ++ Stmt.exprsAll ss

end

theorem Stmt.exprsAll_eq_flatMap (ss : List Stmt) : Stmt.exprsAll ss = ss.flatMap Stmt.exprs := by
  induction ss with
  | nil => rfl
  | cons s ss ih => rw [Stmt.exprsAll, ih, List.flatMap_cons]

def Program.exprs (p : Program) : List Expr := p.functions.flatMap fun f => Stmt.exprsAll f.body

theorem BinaryOp.token_injective : Function.Injective token := by
  intro op op' h
  cases op <;> cases op' <;> first | rfl | cases h

/-- The binary operators, the loosest first. -/
def BinaryOp.order : List (List BinaryOp) :=
  [[.or], [.and], [.equal, .notEqual, .less, .lessEqual, .greater, .greaterEqual], [.add, .sub],
    [.mul, .div, .mod]]

def BinaryOp.Looser (op op' : BinaryOp) : Prop :=
  order.findIdx (op ∈ ·) < order.findIdx (op' ∈ ·)

instance : DecidableRel BinaryOp.Looser := fun _ _ => inferInstanceAs (Decidable (_ < _))

/-- The operator that stands bare in an expression. -/
def Expr.operator? : Expr → Option BinaryOp
  | .binary _ op _ _ => some op
  | .literal _ _ | .name _ _ | .element _ _ _ | .call _ _ _ | .paren _ _ | .unary _ _ _
  | .max _ _ =>
      none

/-- No operand binds more loosely than its place allows: a prefix takes no bare binary operator, and
a binary operator takes none that is looser on the left and only tighter ones on the right. -/
def Expr.Nested : Expr → Prop
  | .unary _ _ operand => operand.operator? = none
  | .binary _ op lhs rhs =>
      (∀ o ∈ lhs.operator?, ¬ o.Looser op) ∧ ∀ o ∈ rhs.operator?, op.Looser o
  | _ => True

instance : DecidablePred Expr.Nested
  | .unary _ _ _ => inferInstanceAs (Decidable (_ = none))
  | .binary _ _ _ _ => inferInstanceAs (Decidable (_ ∧ _))
  | .literal _ _ | .name _ _ | .element _ _ _ | .call _ _ _ | .paren _ _ | .max _ _ =>
      inferInstanceAs (Decidable True)

def Cursor.kinds (c : Cursor) : List TokenKind := c.rest.map Token.kind

theorem Parser.head?_of_test {k : TokenKind} {k? : Option TokenKind} {u : Unit}
    (h : (k?.bind fun k' => if k' = k then some () else none) = some u) : k? = some k := by
  obtain ⟨k', hk, hk'⟩ := Option.bind_eq_some_iff.1 h
  split at hk'
  · rename_i heq
    rw [hk, heq]
  · cases hk'

theorem BaseType.keyword_of_ofToken? {k : TokenKind} {b : BaseType}
    (h : BaseType.ofToken? k = some b) : k = .keyword b.keyword := by
  unfold BaseType.ofToken? at h
  split at h <;> cases h <;> rfl

theorem UnaryOp.token_of_ofToken? {k : TokenKind} {op : UnaryOp}
    (h : UnaryOp.ofToken? k = some op) : k = op.token := by
  unfold UnaryOp.ofToken? at h
  split at h <;> cases h <;> rfl

theorem Parser.token_of_literalOf? {k : TokenKind} {l : Literal} (h : literalOf? k = some l) :
    k = l.token := by
  unfold literalOf? at h
  split at h <;> cases h <;> rfl

/-! The parser reads each operator at a level of its own, and the printer has a precedence for each:
the two are one number, which says how far behind the operator stands in their order. -/

theorem Parser.operator?_eq_some {n : Nat} {k : TokenKind} {op : BinaryOp} :
    operator? n k = some op ↔ n = op.precedence ∧ k = op.token := by
  constructor
  · intro h
    unfold operator? at h
    split at h <;> cases h <;> exact ⟨rfl, rfl⟩
  · rintro ⟨rfl, rfl⟩
    cases op <;> rfl

theorem BinaryOp.looser_iff {op op' : BinaryOp} :
    op.Looser op' ↔ op.precedence < op'.precedence := by
  have hplace (op : BinaryOp) : op.precedence = order.findIdx (op ∈ ·) + 1 := by cases op <;> rfl
  rw [hplace, hplace, Looser, Nat.succ_lt_succ_iff]

theorem BinaryOp.precedence_le (op : BinaryOp) : op.precedence ≤ 5 := by cases op <;> decide

theorem Expr.nested_unary {m : Mark} {op : UnaryOp} {operand : Expr} :
    (Expr.unary m op operand).Nested ↔ 6 ≤ operand.strength := by
  cases operand with
  | binary _ o _ _ => simpa [Nested, operator?, strength] using Nat.lt_succ_of_le o.precedence_le
  | _ => simp [Nested, operator?, strength]

theorem Expr.nested_binary {m : Mark} {op : BinaryOp} {lhs rhs : Expr} :
    (Expr.binary m op lhs rhs).Nested ↔
      op.precedence ≤ lhs.strength ∧ op.precedence < rhs.strength := by
  have hle := op.precedence_le
  have hlhs : (∀ o ∈ lhs.operator?, ¬ o.Looser op) ↔ op.precedence ≤ lhs.strength := by
    cases lhs with
    | binary _ o _ _ => simp [operator?, strength, BinaryOp.looser_iff]
    | _ => simp [operator?, strength]; omega
  have hrhs : (∀ o ∈ rhs.operator?, op.Looser o) ↔ op.precedence < rhs.strength := by
    cases rhs with
    | binary _ o _ _ => simp [operator?, strength, BinaryOp.looser_iff]
    | _ => simp [operator?, strength]; omega
  rw [Nested, hlhs, hrhs]

def Program.WellNested (p : Program) : Prop := ∀ e ∈ p.exprs, e.Nested

/-- A maximum has an operand. -/
def Expr.Filled : Expr → Prop
  | .max _ args => args ≠ []
  | _ => True

def Expr.Canonical (e : Expr) : Prop := e.Nested ∧ e.Filled

/-- An array has an element. -/
def TypeSpec.Sized : TypeSpec → Prop
  | .base _ => True
  | .array size _ => 1 ≤ size

structure Function.Formed (f : Function) : Prop where
  params : ∀ q ∈ f.params, q.type.spec.Sized
  result : ∀ t, f.result = some t → ∃ b, t.spec = .base b
  named : ∀ d ∈ f.declarations, d.names ≠ []
  sized : ∀ d ∈ f.declarations, d.type.spec.Sized
  filled : ∀ e ∈ Stmt.exprsAll f.body, e.Filled

structure Program.Formed (p : Program) : Prop where
  functions : p.functions ≠ []
  formed : ∀ f ∈ p.functions, f.Formed

def Ident.mapMark (f : Mark → Mark) (x : Ident) : Ident := ⟨f x.mark, x.name⟩

mutual

def Expr.mapMark (f : Mark → Mark) : Expr → Expr
  | .literal m value => .literal (f m) value
  | .name m x => .name (f m) (x.mapMark f)
  | .element m base index => .element (f m) (base.mapMark f) (index.mapMark f)
  | .call m callee args => .call (f m) (callee.mapMark f) (Expr.mapMarkAll f args)
  | .paren m inner => .paren (f m) (inner.mapMark f)
  | .unary m op operand => .unary (f m) op (operand.mapMark f)
  | .binary m op lhs rhs => .binary (f m) op (lhs.mapMark f) (rhs.mapMark f)
  | .max m args => .max (f m) (Expr.mapMarkAll f args)

def Expr.mapMarkAll (f : Mark → Mark) : List Expr → List Expr
  | [] => []
  | e :: es => e.mapMark f :: Expr.mapMarkAll f es

end

theorem Expr.mapMarkAll_eq_map (f : Mark → Mark) (es : List Expr) :
    Expr.mapMarkAll f es = es.map (Expr.mapMark f) := by
  induction es with
  | nil => rfl
  | cons e es ih => rw [Expr.mapMarkAll, ih, List.map_cons]

def Target.mapMark (f : Mark → Mark) : Target → Target
  | .name m x => .name (f m) (x.mapMark f)
  | .element m base index => .element (f m) (base.mapMark f) (index.mapMark f)

mutual

def Stmt.mapMark (f : Mark → Mark) : Stmt → Stmt
  | .assign m target value => .assign (f m) (target.mapMark f) (value.mapMark f)
  | .ifThen m condition body => .ifThen (f m) (condition.mapMark f) (Stmt.mapMarkAll f body)
  | .ifElse m condition body otherwise =>
      .ifElse (f m) (condition.mapMark f) (Stmt.mapMarkAll f body) (Stmt.mapMarkAll f otherwise)
  | .while m condition body => .while (f m) (condition.mapMark f) (Stmt.mapMarkAll f body)
  | .for m control range body =>
      .for (f m) (control.mapMark f) (range.map (Expr.mapMark f)) (Stmt.mapMarkAll f body)
  | .call m callee args => .call (f m) (callee.mapMark f) (args.map (Expr.mapMark f))
  | .read m target => .read (f m) (target.mapMark f)
  | .write m value => .write (f m) (value.mapMark f)
  | .writeText m raw => .writeText (f m) raw
  | .ret m value => .ret (f m) (value.map (Expr.mapMark f))

def Stmt.mapMarkAll (f : Mark → Mark) : List Stmt → List Stmt
  | [] => []
  | s :: ss => s.mapMark f :: Stmt.mapMarkAll f ss

end

theorem Stmt.mapMarkAll_eq_map (f : Mark → Mark) (ss : List Stmt) :
    Stmt.mapMarkAll f ss = ss.map (Stmt.mapMark f) := by
  induction ss with
  | nil => rfl
  | cons s ss ih => rw [Stmt.mapMarkAll, ih, List.map_cons]

def TypeNote.mapMark (f : Mark → Mark) (t : TypeNote) : TypeNote := ⟨f t.mark, t.spec⟩

def Parameter.mapMark (f : Mark → Mark) (p : Parameter) : Parameter :=
  ⟨p.name.mapMark f, p.type.mapMark f⟩

def Declaration.mapMark (f : Mark → Mark) (d : Declaration) : Declaration :=
  ⟨d.names.map (Ident.mapMark f), d.type.mapMark f⟩

def Function.mapMark (f : Mark → Mark) (g : Function) : Function where
  mark := f g.mark
  name := g.name.mapMark f
  params := g.params.map (Parameter.mapMark f)
  result := g.result.map (TypeNote.mapMark f)
  declarations := g.declarations.map (Declaration.mapMark f)
  body := g.body.map (Stmt.mapMark f)

/-- A program is marked by its identity alone. -/
def Program.mapMark (f : Mark → Mark) (p : Program) : Program :=
  ⟨(f ⟨p.id, 0, 0⟩).id, p.functions.map (Function.mapMark f)⟩

def Mark.erased (_ : Mark) : Mark := .blank

/-- A program without identities and offsets. -/
def Program.bare (p : Program) : Program := p.mapMark Mark.erased

end Asl
