import Asl.Proofs.Token.Written
import Asl.Proofs.Tree.Wrapped

/-!
# Texts of trees

A tree and the tree with the parentheses of its text have the same text, whatever their marks, and
the tokens of the text are those that the second tree flattens to. They are the tokens of the first
one and added parentheses.
-/
namespace Asl

def separated : List (List Piece) → List Piece
  | [] => []
  | [ps] => ps
  | ps :: pss => ps ++ [.symbol .comma, .space] ++ separated pss

theorem kinds_separated (pss : List (List Piece)) :
    (separated pss).filterMap Piece.kind? =
      commaSeparated (pss.map (List.filterMap Piece.kind?)) := by
  induction pss with
  | nil => rfl
  | cons ps pss ih =>
    cases pss with
    | nil => rw [separated, List.map_singleton, commaSeparated_singleton]
    | cons ps' pss =>
      rw [commaSeparated_map_cons (List.cons_ne_nil _ _), ← ih, separated, List.filterMap_append,
        List.filterMap_append, List.append_assoc]
      · rfl
      · exact List.cons_ne_nil _ _

namespace Expr

variable {e : Expr}

theorem strength_wrapIf {f : Mark → Mark} (e : Expr) {n : Nat} (hn : n ≤ 7) :
    ¬((wrapIf (e.strength < n) e.wrapped).mapMark f).strength < n := by
  rw [strength_mapMark]
  exact Nat.not_lt.2 (e.le_strength_wrapIf hn)

theorem pieces_wrapIf {f : Mark → Mark} {n : Nat} (hn : n ≤ 7)
    (h : (e.wrapped.mapMark f).pieces = e.pieces) :
    parenthesizedIf (((wrapIf (e.strength < n) e.wrapped).mapMark f).strength < n)
      ((wrapIf (e.strength < n) e.wrapped).mapMark f).pieces =
        parenthesizedIf (e.strength < n) e.pieces := by
  rw [decide_eq_false (e.strength_wrapIf hn)]
  change ((wrapIf _ e.wrapped).mapMark f).pieces = _
  cases decide (e.strength < n) with
  | true => exact congrArg parenthesized h
  | false => exact h

theorem listPieces_eq (es : List Expr) : listPieces es = separated (es.map pieces) := by
  induction es with
  | nil => rfl
  | cons e es ih =>
    cases es with
    | nil => rfl
    | cons e' es =>
      rw [listPieces, ih]
      · rfl
      · exact List.cons_ne_nil _ _

theorem listPieces_wrapped {f : Mark → Mark} {es : List Expr}
    (h : ∀ e ∈ es, (e.wrapped.mapMark f).pieces = e.pieces) :
    listPieces ((es.map wrapped).map (mapMark f)) = listPieces es := by
  rw [listPieces_eq, listPieces_eq, List.map_map, List.map_map]
  exact congrArg separated (List.map_congr_left h)

theorem pieces_wrapped (f : Mark → Mark) (e : Expr) :
    (e.wrapped.mapMark f).pieces = e.pieces := by
  induction e using Expr.ind with
  | literal m v => rfl
  | name m x => rfl
  | element m base index ih => rw [wrapped, mapMark, pieces, pieces, ih, Ident.mapMark]
  | call m callee args ih =>
    rw [wrapped, mapMark, pieces, pieces, wrappedAll_eq_map, mapMarkAll_eq_map,
      listPieces_wrapped ih, Ident.mapMark]
  | paren m inner ih => rw [wrapped, mapMark, pieces, pieces, ih]
  | unary m op operand ih => rw [wrapped, mapMark, pieces, pieces, pieces_wrapIf (by decide) ih]
  | binary m op lhs rhs ihl ihr =>
    have hlevel := op.precedence_le
    have hr := pieces_wrapIf (n := op.precedence + 1) (by omega) ihr
    simp only [Nat.lt_succ_iff] at hr
    rw [wrapped, mapMark, pieces, pieces, pieces_wrapIf (by omega) ihl, hr]
  | max m args ih =>
    rw [wrapped, mapMark, pieces, pieces, wrappedAll_eq_map, mapMarkAll_eq_map,
      listPieces_wrapped ih]

theorem kinds_parenthesized (ps : List Piece) :
    (parenthesized ps).filterMap Piece.kind? = inParens (ps.filterMap Piece.kind?) := by
  rw [parenthesized, List.filterMap_append]
  rfl

theorem kinds_parenthesizedIf {b : Bool} (h : e.pieces.filterMap Piece.kind? = e.wrapped.kinds) :
    (parenthesizedIf b e.pieces).filterMap Piece.kind? = (wrapIf b e.wrapped).kinds := by
  cases b with
  | true => exact (kinds_parenthesized _).trans (congrArg inParens h)
  | false => exact h

theorem kinds_listPieces {es : List Expr}
    (h : ∀ e ∈ es, e.pieces.filterMap Piece.kind? = e.wrapped.kinds) :
    (listPieces es).filterMap Piece.kind? =
      commaSeparated ((es.map wrapped).map kinds) := by
  rw [listPieces_eq, kinds_separated, List.map_map, List.map_map]
  exact congrArg commaSeparated (List.map_congr_left h)

theorem kinds_op (op : UnaryOp) : op.pieces.filterMap Piece.kind? = [op.token] := by
  cases op <;> rfl

theorem kinds_pieces (e : Expr) : e.pieces.filterMap Piece.kind? = e.wrapped.kinds := by
  induction e using Expr.ind with
  | literal m v => rfl
  | name m x => rfl
  | element m base index ih =>
    simp only [pieces, wrapped, kinds, List.filterMap_append, ih]
    rfl
  | call m callee args ih =>
    rw [wrapped, kinds, kindsAll_eq_map, wrappedAll_eq_map, ← kinds_listPieces ih,
      ← kinds_parenthesized]
    rfl
  | paren m inner ih => rw [pieces, wrapped, kinds, kinds_parenthesized, ih]
  | unary m op operand ih =>
    rw [pieces, wrapped, kinds, List.filterMap_append, kinds_op, kinds_parenthesizedIf ih]
    rfl
  | binary m op lhs rhs ihl ihr =>
    rw [pieces, wrapped, kinds, List.filterMap_append, List.filterMap_append,
      kinds_parenthesizedIf ihl, kinds_parenthesizedIf ihr, List.append_assoc]
    rfl
  | max m args ih =>
    rw [wrapped, kinds, kindsAll_eq_map, wrappedAll_eq_map, ← kinds_listPieces ih,
      ← kinds_parenthesized]
    rfl

end Expr

def TokenKind.isParen (k : TokenKind) : Bool := k = .symbol .lparen || k = .symbol .rparen

def unparenthesized (ks : List TokenKind) : List TokenKind := ks.filter fun k => !k.isParen

@[simp] theorem unparenthesized_append (ks ks' : List TokenKind) :
    unparenthesized (ks ++ ks') = unparenthesized ks ++ unparenthesized ks' := List.filter_append ..

@[simp] theorem unparenthesized_cons (k : TokenKind) (ks : List TokenKind) :
    unparenthesized (k :: ks) = (if k.isParen then [] else [k]) ++ unparenthesized ks := by
  unfold unparenthesized
  rw [List.filter_cons]
  cases k.isParen <;> rfl

@[simp] theorem unparenthesized_inParens (ks : List TokenKind) :
    unparenthesized (inParens ks) = unparenthesized ks := by
  rw [inParens, unparenthesized_cons, unparenthesized_append]
  exact List.append_nil _

theorem unparenthesized_commaSeparated {α : Type} {f : α → α} {g : α → List TokenKind}
    {xs : List α} (h : ∀ x ∈ xs, unparenthesized (g (f x)) = unparenthesized (g x)) :
    unparenthesized (commaSeparated ((xs.map f).map g)) =
      unparenthesized (commaSeparated (xs.map g)) := by
  induction xs with
  | nil => rfl
  | cons x xs ih =>
    obtain ⟨hx, hxs⟩ := List.forall_mem_cons.1 h
    by_cases hne : xs = []
    · subst hne
      simpa only [List.map_cons, List.map_nil, commaSeparated_singleton] using hx
    · have hne' : xs.map f ≠ [] := fun hnil => hne (List.map_eq_nil_iff.1 hnil)
      rw [List.map_cons, commaSeparated_map_cons hne, commaSeparated_map_cons hne']
      simp only [unparenthesized_append, unparenthesized_cons, hx, ih hxs]

namespace Expr

@[simp] theorem unparenthesized_wrapIf (b : Bool) (e : Expr) :
    unparenthesized (wrapIf b e).kinds = unparenthesized e.kinds := by
  cases b with
  | true => exact unparenthesized_inParens _
  | false => rfl

theorem unparenthesized_wrapped (e : Expr) :
    unparenthesized e.wrapped.kinds = unparenthesized e.kinds := by
  induction e using Expr.ind with
  | literal m v => rfl
  | name m x => rfl
  | element m base index ih => simp [wrapped, kinds, inBrackets, ih]
  | call m callee args ih =>
    simp [wrapped, kinds, kindsAll_eq_map, wrappedAll_eq_map, unparenthesized_commaSeparated ih,
      -List.map_map]
  | paren m inner ih => simp [wrapped, kinds, ih]
  | unary m op operand ih => simp [wrapped, kinds, ih]
  | binary m op lhs rhs ihl ihr => simp [wrapped, kinds, ihl, ihr]
  | max m args ih =>
    simp [wrapped, kinds, kindsAll_eq_map, wrappedAll_eq_map, unparenthesized_commaSeparated ih,
      -List.map_map]

end Expr

theorem Target.pieces_wrapped (f : Mark → Mark) (x : Target) :
    ((x.mapExpr Expr.wrapped).mapMark f).pieces = x.pieces := by
  cases x with
  | name m x => rfl
  | element m base index =>
    rw [Target.mapExpr, Target.mapMark, Target.pieces, Target.pieces, index.pieces_wrapped,
      Ident.mapMark]

theorem Target.kinds_pieces (x : Target) :
    x.pieces.filterMap Piece.kind? = (x.mapExpr Expr.wrapped).kinds := by
  cases x with
  | name m x => rfl
  | element m base index =>
    simp only [Target.pieces, Target.mapExpr, Target.kinds, List.filterMap_append,
      index.kinds_pieces]
    rfl

theorem Target.unparenthesized_wrapped (x : Target) :
    unparenthesized (x.mapExpr Expr.wrapped).kinds = unparenthesized x.kinds := by
  cases x with
  | name m x => rfl
  | element m base index =>
    simp [Target.mapExpr, Target.kinds, inBrackets, index.unparenthesized_wrapped]

theorem kinds_line (depth : Nat) (ps : List Piece) :
    (line depth ps).filterMap Piece.kind? = ps.filterMap Piece.kind? := by
  rw [line, List.cons_append, List.filterMap_cons_none rfl, List.filterMap_append]
  exact List.append_nil _

theorem kinds_simpleLine (depth : Nat) (ps : List Piece) :
    (simpleLine depth ps).filterMap Piece.kind? =
      ps.filterMap Piece.kind? ++ [.symbol .semicolon] := by
  rw [simpleLine, kinds_line, List.filterMap_append]
  rfl

namespace Stmt

theorem listPieces_wrapped {f : Mark → Mark} {ss : List Stmt} {depth : Nat}
    (h : ∀ s ∈ ss, ((s.mapExpr Expr.wrapped).mapMark f).pieces depth = s.pieces depth) :
    listPieces depth (mapMarkAll f (mapExprAll Expr.wrapped ss)) = listPieces depth ss := by
  induction ss with
  | nil => rfl
  | cons s ss ih =>
    obtain ⟨hs, hss⟩ := List.forall_mem_cons.1 h
    rw [mapExprAll, mapMarkAll, listPieces, listPieces, hs, ih hss]

theorem pieces_wrapped (f : Mark → Mark) (s : Stmt) (depth : Nat) :
    ((s.mapExpr Expr.wrapped).mapMark f).pieces depth = s.pieces depth := by
  have hes := fun (es : List Expr) =>
    Expr.listPieces_wrapped fun e (_ : e ∈ es) => e.pieces_wrapped f
  induction s using Stmt.ind generalizing depth with
  | assign m target value =>
    rw [mapExpr, mapMark, pieces, pieces, target.pieces_wrapped, value.pieces_wrapped]
  | ifThen m condition body ih =>
    rw [mapExpr, mapMark, pieces, pieces, condition.pieces_wrapped,
      listPieces_wrapped fun s hs => ih s hs _]
  | ifElse m condition body otherwise ihb iho =>
    rw [mapExpr, mapMark, pieces, pieces, condition.pieces_wrapped,
      listPieces_wrapped fun s hs => ihb s hs _,
      listPieces_wrapped fun s hs => iho s hs _]
  | while_ m condition body ih =>
    rw [mapExpr, mapMark, pieces, pieces, condition.pieces_wrapped,
      listPieces_wrapped fun s hs => ih s hs _]
  | for_ m control range body ih =>
    rw [mapExpr, mapMark, pieces, pieces, hes, Ident.mapMark,
      listPieces_wrapped fun s hs => ih s hs _]
  | call m callee args => rw [mapExpr, mapMark, pieces, pieces, hes, Ident.mapMark]
  | read m target => rw [mapExpr, mapMark, pieces, pieces, target.pieces_wrapped]
  | write m value => rw [mapExpr, mapMark, pieces, pieces, value.pieces_wrapped]
  | writeText m raw => rfl
  | ret m value =>
    cases value with
    | none => rfl
    | some value =>
      rw [mapExpr, mapMark, Option.map_some, Option.map_some, pieces, pieces, value.pieces_wrapped]

theorem kinds_listPieces {ss : List Stmt} {depth : Nat}
    (h : ∀ s ∈ ss, (s.pieces depth).filterMap Piece.kind? = (s.mapExpr Expr.wrapped).kinds) :
    (listPieces depth ss).filterMap Piece.kind? = kindsAll (mapExprAll Expr.wrapped ss) := by
  induction ss with
  | nil => rfl
  | cons s ss ih =>
    obtain ⟨hs, hss⟩ := List.forall_mem_cons.1 h
    rw [listPieces, List.filterMap_append, hs, ih hss]
    rfl

theorem kinds_pieces (s : Stmt) (depth : Nat) :
    (s.pieces depth).filterMap Piece.kind? = (s.mapExpr Expr.wrapped).kinds := by
  have hlist := fun (es : List Expr) =>
    Expr.kinds_listPieces fun e (_ : e ∈ es) => e.kinds_pieces
  induction s using Stmt.ind generalizing depth with
  | assign m target value =>
    rw [pieces, kinds_simpleLine, List.filterMap_append, List.filterMap_append,
      target.kinds_pieces, value.kinds_pieces, List.append_assoc, List.append_assoc]
    rfl
  | ifThen m condition body ih =>
    simp only [pieces, List.filterMap_append, kinds_line, condition.kinds_pieces,
      kinds_listPieces fun s hs => ih s hs _, List.append_assoc]
    rfl
  | ifElse m condition body otherwise ihb iho =>
    simp only [pieces, List.filterMap_append, kinds_line, condition.kinds_pieces,
      kinds_listPieces fun s hs => ihb s hs _, kinds_listPieces fun s hs => iho s hs _,
      List.append_assoc]
    rfl
  | while_ m condition body ih =>
    simp only [pieces, List.filterMap_append, kinds_line, condition.kinds_pieces,
      kinds_listPieces fun s hs => ih s hs _, List.append_assoc]
    rfl
  | for_ m control range body ih =>
    simp only [pieces, List.filterMap_append, kinds_line, Expr.kinds_parenthesized, hlist,
      kinds_listPieces fun s hs => ih s hs _, List.append_assoc]
    rfl
  | call m callee args =>
    rw [pieces, kinds_simpleLine, ← List.singleton_append, List.filterMap_append,
      Expr.kinds_parenthesized, hlist]
    rfl
  | read m target =>
    rw [pieces, kinds_simpleLine, List.filterMap_append, target.kinds_pieces]
    rfl
  | write m value =>
    rw [pieces, kinds_simpleLine, List.filterMap_append, value.kinds_pieces]
    rfl
  | writeText m raw => exact kinds_simpleLine depth _
  | ret m value =>
    cases value with
    | none => exact kinds_simpleLine depth _
    | some value =>
      rw [pieces, kinds_simpleLine, List.filterMap_append, value.kinds_pieces]
      rfl

theorem unparenthesized_kindsAll {ss : List Stmt}
    (h : ∀ s ∈ ss, unparenthesized (s.mapExpr Expr.wrapped).kinds = unparenthesized s.kinds) :
    unparenthesized (kindsAll (mapExprAll Expr.wrapped ss)) = unparenthesized (kindsAll ss) := by
  induction ss with
  | nil => rfl
  | cons s ss ih =>
    obtain ⟨hs, hss⟩ := List.forall_mem_cons.1 h
    rw [mapExprAll, kindsAll, kindsAll, unparenthesized_append, hs, ih hss,
      unparenthesized_append]

theorem unparenthesized_wrapped (s : Stmt) :
    unparenthesized (s.mapExpr Expr.wrapped).kinds = unparenthesized s.kinds := by
  have hlist := fun (es : List Expr) =>
    unparenthesized_commaSeparated fun e (_ : e ∈ es) => e.unparenthesized_wrapped
  induction s using Stmt.ind with
  | assign m target value =>
    simp [mapExpr, kinds, target.unparenthesized_wrapped, value.unparenthesized_wrapped]
  | ifThen m condition body ih =>
    simp [mapExpr, kinds, condition.unparenthesized_wrapped, unparenthesized_kindsAll ih]
  | ifElse m condition body otherwise ihb iho =>
    simp [mapExpr, kinds, condition.unparenthesized_wrapped, unparenthesized_kindsAll ihb,
      unparenthesized_kindsAll iho]
  | while_ m condition body ih =>
    simp [mapExpr, kinds, condition.unparenthesized_wrapped, unparenthesized_kindsAll ih]
  | for_ m control range body ih =>
    simp [mapExpr, kinds, hlist, unparenthesized_kindsAll ih, -List.map_map]
  | call m callee args => simp [mapExpr, kinds, hlist, -List.map_map]
  | read m target => simp [mapExpr, kinds, target.unparenthesized_wrapped]
  | write m value => simp [mapExpr, kinds, value.unparenthesized_wrapped]
  | writeText m raw => rfl
  | ret m value =>
    cases value with
    | none => rfl
    | some value => simp [mapExpr, kinds, value.unparenthesized_wrapped]

end Stmt

theorem Ident.listPieces_eq (xs : List Ident) :
    Ident.listPieces xs = separated (xs.map fun x => [.ident x.name]) := by
  induction xs with
  | nil => rfl
  | cons x xs ih =>
    cases xs with
    | nil => rfl
    | cons y xs =>
      rw [Ident.listPieces, ih]
      · rfl
      · exact List.cons_ne_nil _ _

theorem Parameter.listPieces_eq (qs : List Parameter) :
    Parameter.listPieces qs = separated (qs.map Parameter.pieces) := by
  induction qs with
  | nil => rfl
  | cons q qs ih =>
    cases qs with
    | nil => rfl
    | cons q' qs =>
      rw [Parameter.listPieces, ih]
      · rfl
      · exact List.cons_ne_nil _ _

theorem TypeSpec.kinds_pieces (t : TypeSpec) : t.pieces.filterMap Piece.kind? = t.kinds := by
  cases t <;> rfl

theorem Parameter.kinds_pieces (q : Parameter) : q.pieces.filterMap Piece.kind? = q.kinds := by
  rw [Parameter.kinds, ← TypeSpec.kinds_pieces]
  rfl

theorem Declaration.kinds_pieces (d : Declaration) :
    d.pieces.filterMap Piece.kind? = d.kinds := by
  have hnames : (Ident.listPieces d.names).filterMap Piece.kind? =
      commaSeparated (d.names.map fun x => [.ident x.name]) := by
    rw [Ident.listPieces_eq, kinds_separated, List.map_map]
    rfl
  rw [Declaration.pieces, kinds_line, List.filterMap_append, List.filterMap_append, hnames,
    TypeNote.pieces, List.filterMap_append, TypeSpec.kinds_pieces, List.append_assoc]
  rfl

namespace Function

theorem pieces_wrapped (f : Mark → Mark) (g : Function) :
    ((g.mapExpr Expr.wrapped).mapMark f).pieces = g.pieces := by
  have hparams : Parameter.listPieces (g.params.map (Parameter.mapMark f)) =
      Parameter.listPieces g.params := by
    rw [Parameter.listPieces_eq, Parameter.listPieces_eq, List.map_map]
    rfl
  have hresult : (g.result.map (TypeNote.mapMark f)).map TypeNote.pieces =
      g.result.map TypeNote.pieces := Option.map_map ..
  have hdeclarations : (g.declarations.map (Declaration.mapMark f)).flatMap Declaration.pieces =
      g.declarations.flatMap Declaration.pieces := by
    rw [List.flatMap_map]
    refine congrArg (List.flatMap · _) (funext fun d => ?_)
    rw [Declaration.pieces, Declaration.pieces, Ident.listPieces_eq, Ident.listPieces_eq,
      Declaration.mapMark, List.map_map]
    rfl
  have hbody : Stmt.listPieces 1 ((g.body.map (Stmt.mapExpr Expr.wrapped)).map (Stmt.mapMark f)) =
      Stmt.listPieces 1 g.body := by
    rw [← Stmt.mapExprAll_eq_map, ← Stmt.mapMarkAll_eq_map,
      Stmt.listPieces_wrapped fun s _ => s.pieces_wrapped f 1]
  rw [mapExpr, mapMark, pieces, hparams, hresult, hdeclarations, hbody]
  rfl

theorem kinds_pieces (f : Function) :
    f.pieces.filterMap Piece.kind? = (f.mapExpr Expr.wrapped).kinds := by
  have hparams : (Parameter.listPieces f.params).filterMap Piece.kind? =
      commaSeparated (f.params.map Parameter.kinds) := by
    rw [Parameter.listPieces_eq, kinds_separated, List.map_map]
    exact congrArg _ (List.map_congr_left fun q _ => q.kinds_pieces)
  have hresult : ((f.result.map TypeNote.pieces).getD []).filterMap Piece.kind? =
      TypeNote.resultKinds f.result := by
    cases f.result with
    | none => rfl
    | some t =>
      rw [TypeNote.resultKinds, ← t.spec.kinds_pieces]
      rfl
  have hdeclarations : (f.declarations.flatMap Declaration.pieces).filterMap Piece.kind? =
      f.declarations.flatMap Declaration.kinds := by
    rw [List.filterMap_flatMap]
    exact congrArg (List.flatMap · _) (funext Declaration.kinds_pieces)
  have hbody : (Stmt.listPieces 1 f.body).filterMap Piece.kind? =
      Stmt.kindsAll (f.body.map (Stmt.mapExpr Expr.wrapped)) := by
    rw [Stmt.kinds_listPieces fun s _ => s.kinds_pieces 1, Stmt.mapExprAll_eq_map]
  simp only [pieces, List.filterMap_append, kinds_line, Expr.kinds_parenthesized, hparams,
    hresult, hdeclarations, hbody, List.append_assoc]
  rfl

theorem unparenthesized_wrapped (f : Function) :
    unparenthesized (f.mapExpr Expr.wrapped).kinds = unparenthesized f.kinds := by
  have hbody := Stmt.unparenthesized_kindsAll fun s (_ : s ∈ f.body) => s.unparenthesized_wrapped
  simp [kinds, mapExpr, ← Stmt.mapExprAll_eq_map, hbody]

end Function

namespace Program

theorem pieces_wrapped (f : Mark → Mark) (p : Program) :
    (p.wrapped.mapMark f).pieces = p.pieces := by
  rw [pieces, pieces, wrapped, mapExpr, mapMark]
  induction p.functions with
  | nil => rfl
  | cons g gs ih =>
    cases gs with
    | nil => exact g.pieces_wrapped f
    | cons g' gs =>
      simp only [List.map_cons, Function.listPieces, g.pieces_wrapped] at ih ⊢
      rw [ih]

theorem kinds_pieces (p : Program) : p.pieces.filterMap Piece.kind? = p.wrapped.kinds := by
  rw [pieces, kinds, wrapped, mapExpr]
  induction p.functions with
  | nil => rfl
  | cons f fs ih =>
    rw [List.map_cons, List.flatMap_cons, ← ih, ← f.kinds_pieces]
    cases fs with
    | nil => exact (List.append_nil _).symm
    | cons g fs =>
      simp only [Function.listPieces, List.filterMap_append, List.append_assoc]
      rfl

theorem written_wrapped {p : Program} (h : ∀ k ∈ p.kinds, k.Written) :
    ∀ k ∈ p.wrapped.kinds, k.Written := by
  have hsame : unparenthesized p.wrapped.kinds = unparenthesized p.kinds := by
    rw [kinds, kinds, wrapped, mapExpr]
    induction p.functions with
    | nil => rfl
    | cons f fs ih =>
      rw [List.map_cons, List.flatMap_cons, unparenthesized_append, f.unparenthesized_wrapped, ih,
        List.flatMap_cons, unparenthesized_append]
  intro k hk
  by_cases hparen : k.isParen = true
  · simp only [TokenKind.isParen, Bool.or_eq_true, decide_eq_true_eq] at hparen
    rcases hparen with rfl | rfl <;> trivial
  · have hmem : k ∈ unparenthesized p.wrapped.kinds :=
      List.mem_filter.2 ⟨hk, by simpa using hparen⟩
    rw [hsame] at hmem
    exact h k (List.mem_filter.1 hmem).1

end Program

end Asl
