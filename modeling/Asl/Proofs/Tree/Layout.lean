import Asl.Proofs.Token.Reread
import Asl.Proofs.Tree.Printed

/-!
# Texts of trees, split again

No two tokens of a layout run together: a space, a bracket, a comma or a semicolon stands behind
every token that the next character could lengthen. The text of a layout therefore splits into the
tokens of the layout.
-/
namespace Asl

/-- A layout whose first character lengthens no token. -/
def Settles (ps : List Piece) : Prop :=
  ∀ d, (ps.flatMap Piece.chars).head? = some d → ∀ k : TokenKind, k.grows d = false

/-- A layout in which no token is lengthened by what follows it. -/
def Apart : List Piece → Prop
  | [] => True
  | .token k :: ps =>
      (∀ d, (ps.flatMap Piece.chars).head? = some d → k.grows d = false) ∧ Apart ps
  | .space :: ps | .newline :: ps | .indent _ :: ps => Apart ps

variable {ps : List Piece}

theorem Apart.lexes (h : Apart ps) (hw : ∀ k ∈ ps.filterMap Piece.kind?, k.Written) :
    Lexes (ps.flatMap Piece.chars) (ps.filterMap Piece.kind?) := by
  induction ps with
  | nil => exact lexes_nil
  | cons piece ps ih =>
    cases piece with
    | token k =>
      obtain ⟨hk, hps⟩ := List.forall_mem_cons.1 hw
      exact lexes_token hk h.1 (ih h.2 hps)
    | space => exact lexes_blank rfl (ih h hw)
    | newline => exact lexes_blank rfl (ih h hw)
    | indent depth =>
      have hblanks : ∀ n : Nat, Lexes (List.replicate n ' ' ++ ps.flatMap Piece.chars)
          (ps.filterMap Piece.kind?) := by
        intro n
        induction n with
        | zero => exact ih h hw
        | succ n ihn => exact lexes_blank rfl ihn
      exact hblanks (2 * depth)

theorem grows_eq_false {d : Char} (hd : isWordChar d = false) (hdot : d ≠ '.') (heq : d ≠ '=')
    (hslash : d ≠ '/') (k : TokenKind) : k.grows d = false := by
  have hdigit : isDigit d = false := by
    unfold isWordChar at hd
    simp only [Bool.or_eq_false_iff] at hd
    exact hd.1.2
  cases k with
  | symbol s => cases s <;> simp [TokenKind.grows, heq, hslash]
  | _ => simp [TokenKind.grows, hd, hdigit, hdot]

theorem settles_of_head {piece : Piece} {d : Char} {ds : List Char} (h : piece.chars = d :: ds)
    (hd : isWordChar d = false) (hdot : d ≠ '.') (heq : d ≠ '=') (hslash : d ≠ '/') :
    Settles (piece :: ps) := by
  intro d' hd'
  rw [List.flatMap_cons, h] at hd'
  cases hd'
  exact grows_eq_false hd hdot heq hslash

theorem settles_space : Settles (.space :: ps) :=
  settles_of_head rfl (by decide) (by decide) (by decide) (by decide)

theorem settles_newline : Settles (.newline :: ps) :=
  settles_of_head rfl (by decide) (by decide) (by decide) (by decide)

theorem settles_symbol {s : Symbol}
    (hs : s ∈ [.lparen, .rparen, .lbracket, .rbracket, .comma, .semicolon, .colon]) :
    Settles (.symbol s :: ps) := by
  simp only [List.mem_cons, List.not_mem_nil, or_false] at hs
  rcases hs with rfl | rfl | rfl | rfl | rfl | rfl | rfl <;>
    exact settles_of_head rfl (by decide) (by decide) (by decide) (by decide)

theorem apart_token {k : TokenKind} (hs : Settles ps) (h : Apart ps) : Apart (.token k :: ps) :=
  ⟨fun d hd => hs d hd k, h⟩

theorem apart_open {s : Symbol} (hs : s ∈ [.lparen, .lbracket, .plus, .minus]) (h : Apart ps) :
    Apart (.symbol s :: ps) := by
  refine ⟨fun d _ => ?_, h⟩
  simp only [List.mem_cons, List.not_mem_nil, or_false] at hs
  rcases hs with rfl | rfl | rfl | rfl <;> rfl

/-- A layout that may stand before everything that lengthens no token. -/
def Closed (ps : List Piece) : Prop := ∀ rest, Settles rest → Apart rest → Apart (ps ++ rest)

/-- A layout that may stand before every other. -/
def Whole (ps : List Piece) : Prop := ∀ rest, Apart rest → Apart (ps ++ rest)

theorem closed_token (k : TokenKind) : Closed [.token k] := fun _ hs h => apart_token hs h

theorem closed_parenthesized (h : Closed ps) : Closed (parenthesized ps) := by
  intro rest hs hrest
  rw [parenthesized, List.cons_append, List.cons_append, List.append_assoc]
  exact apart_open (by simp) (h _ (settles_symbol (by simp)) (apart_token hs hrest))

theorem closed_parenthesizedIf {b : Bool} (h : Closed ps) : Closed (parenthesizedIf b ps) := by
  cases b with
  | true => exact closed_parenthesized h
  | false => exact h

theorem closed_applied (k : TokenKind) (h : Closed ps) : Closed (.token k :: parenthesized ps) :=
  fun _ hs hrest => apart_token (settles_symbol (by simp)) (closed_parenthesized h _ hs hrest)

theorem closed_indexed (k : TokenKind) (h : Closed ps) :
    Closed ([.token k, .symbol .lbracket] ++ ps ++ [.symbol .rbracket]) := by
  intro rest hs hrest
  simp only [List.append_assoc, List.cons_append, List.nil_append]
  refine apart_token (settles_symbol (by simp)) (apart_open (by simp) ?_)
  exact h _ (settles_symbol (by simp)) (apart_token hs hrest)

theorem closed_separated {pss : List (List Piece)} (h : ∀ ps ∈ pss, Closed ps) :
    Closed (separated pss) := by
  induction pss with
  | nil => exact fun _ _ hrest => hrest
  | cons ps pss ih =>
    obtain ⟨hps, hpss⟩ := List.forall_mem_cons.1 h
    cases pss with
    | nil => exact hps
    | cons ps' pss =>
      intro rest hs hrest
      rw [separated, List.append_assoc, List.append_assoc]
      · exact hps _ (settles_symbol (by simp)) (apart_token settles_space (ih hpss rest hs hrest))
      · exact List.cons_ne_nil _ _

theorem Whole.append {ps' : List Piece} (h : Whole ps) (h' : Whole ps') : Whole (ps ++ ps') := by
  intro rest hrest
  rw [List.append_assoc]
  exact h _ (h' rest hrest)

theorem whole_flatMap {α : Type} {g : α → List Piece} {xs : List α} (h : ∀ x ∈ xs, Whole (g x)) :
    Whole (xs.flatMap g) := by
  induction xs with
  | nil => exact fun _ hrest => hrest
  | cons x xs ih =>
    obtain ⟨hx, hxs⟩ := List.forall_mem_cons.1 h
    exact hx.append (ih hxs)

theorem whole_line (depth : Nat) (h : Closed ps) : Whole (line depth ps) := by
  intro rest hrest
  rw [line, List.cons_append, List.cons_append, List.append_assoc]
  exact h _ settles_newline hrest

theorem whole_simpleLine (depth : Nat) (h : Closed ps) : Whole (simpleLine depth ps) := by
  refine whole_line depth fun rest hs hrest => ?_
  rw [List.append_assoc]
  exact h _ (settles_symbol (by simp)) (apart_token hs hrest)

theorem closed_keyword (k : Keyword) (h : Closed ps) :
    Closed ([.keyword k, .space] ++ ps) :=
  fun rest hs hrest => apart_token settles_space (h rest hs hrest)

theorem closed_head (k k' : Keyword) (h : Closed ps) :
    Closed ([.keyword k, .space] ++ ps ++ [.space, .keyword k']) := by
  intro rest hs hrest
  rw [List.append_assoc]
  exact apart_token settles_space (h _ settles_space (apart_token hs hrest))

theorem Expr.closed_list {es : List Expr} (h : ∀ e ∈ es, Closed e.pieces) :
    Closed (Expr.listPieces es) := by
  rw [Expr.listPieces_eq]
  exact closed_separated (List.forall_mem_map.2 h)

theorem Expr.closed_pieces (e : Expr) : Closed e.pieces := by
  induction e using Expr.ind with
  | literal m v => exact closed_token _
  | name m x => exact closed_token _
  | element m base index ih => exact closed_indexed _ ih
  | call m callee args ih => exact closed_applied _ (closed_list ih)
  | paren m inner ih => exact closed_parenthesized ih
  | unary m op operand ih =>
    intro rest hs hrest
    rw [pieces, List.append_assoc]
    have hoperand := closed_parenthesizedIf (b := operand.strength < 6) ih rest hs hrest
    cases op with
    | not => exact apart_token settles_space hoperand
    | plus => exact apart_open (by simp) hoperand
    | minus => exact apart_open (by simp) hoperand
  | binary m op lhs rhs ihl ihr =>
    intro rest hs hrest
    rw [pieces, List.append_assoc, List.append_assoc]
    refine closed_parenthesizedIf ihl _ settles_space (apart_token settles_space ?_)
    exact closed_parenthesizedIf ihr rest hs hrest
  | max m args ih => exact closed_applied _ (closed_list ih)

theorem Target.closed_pieces (x : Target) : Closed x.pieces := by
  cases x with
  | name m x => exact closed_token _
  | element m base index => exact closed_indexed _ index.closed_pieces

namespace Stmt

theorem whole_list {depth : Nat} {ss : List Stmt} (h : ∀ s ∈ ss, Whole (s.pieces depth)) :
    Whole (listPieces depth ss) := by
  induction ss with
  | nil => exact fun _ hrest => hrest
  | cons s ss ih =>
    obtain ⟨hs, hss⟩ := List.forall_mem_cons.1 h
    exact hs.append (ih hss)

theorem whole_pieces (s : Stmt) (depth : Nat) : Whole (s.pieces depth) := by
  have hlist := fun (es : List Expr) => Expr.closed_list fun e (_ : e ∈ es) => e.closed_pieces
  induction s using Stmt.ind generalizing depth with
  | assign m target value =>
    refine whole_simpleLine depth fun rest hs hrest => ?_
    rw [List.append_assoc, List.append_assoc]
    refine target.closed_pieces _ settles_space (apart_token settles_space ?_)
    exact value.closed_pieces rest hs hrest
  | ifThen m condition body ih =>
    exact ((whole_line depth (closed_head .if .then condition.closed_pieces)).append
      (whole_list fun s hs => ih s hs _)).append (whole_line depth (closed_token _))
  | ifElse m condition body otherwise ihb iho =>
    exact ((((whole_line depth (closed_head .if .then condition.closed_pieces)).append
      (whole_list fun s hs => ihb s hs _)).append (whole_line depth (closed_token _))).append
        (whole_list fun s hs => iho s hs _)).append (whole_line depth (closed_token _))
  | while_ m condition body ih =>
    exact ((whole_line depth (closed_head .while .do condition.closed_pieces)).append
      (whole_list fun s hs => ih s hs _)).append (whole_line depth (closed_token _))
  | for_ m control range body ih =>
    have hhead : Closed ([.keyword .for, .space, .ident control.name, .space, .keyword .in, .space,
        .keyword .range] ++ parenthesized (Expr.listPieces range) ++ [.space, .keyword .do]) := by
      intro rest hs hrest
      rw [List.append_assoc]
      refine apart_token settles_space (apart_token settles_space (apart_token settles_space ?_))
      exact closed_applied _ (hlist range) _ settles_space (apart_token hs hrest)
    exact ((whole_line depth hhead).append (whole_list fun s hs => ih s hs _)).append
      (whole_line depth (closed_token _))
  | call m callee args => exact whole_simpleLine depth (closed_applied _ (hlist args))
  | read m target => exact whole_simpleLine depth (closed_keyword _ target.closed_pieces)
  | write m value => exact whole_simpleLine depth (closed_keyword _ value.closed_pieces)
  | writeText m raw => exact whole_simpleLine depth (closed_keyword _ (closed_token _))
  | ret m value =>
    cases value with
    | none => exact whole_simpleLine depth (closed_token _)
    | some value => exact whole_simpleLine depth (closed_keyword _ value.closed_pieces)

end Stmt

theorem TypeNote.closed_pieces (t : TypeNote) : Closed t.pieces := by
  intro rest hs hrest
  refine apart_token settles_space ?_
  cases t.spec with
  | base b => exact apart_token hs hrest
  | array size elem =>
    refine apart_token (settles_symbol (by simp)) (apart_open (by simp) ?_)
    refine apart_token (settles_symbol (by simp)) (apart_token settles_space ?_)
    exact apart_token settles_space (apart_token hs hrest)

theorem Parameter.closed_pieces (q : Parameter) : Closed q.pieces :=
  fun rest hs hrest => apart_token (settles_symbol (by simp)) (q.type.closed_pieces rest hs hrest)

theorem Declaration.whole_pieces (d : Declaration) : Whole d.pieces := by
  refine whole_line 1 fun rest hs hrest => ?_
  have hnames : Closed (Ident.listPieces d.names) := by
    rw [Ident.listPieces_eq]
    exact closed_separated (List.forall_mem_map.2 fun x _ => closed_token _)
  rw [List.append_assoc]
  refine apart_token settles_space ?_
  exact hnames _ (settles_symbol (by simp)) (d.type.closed_pieces rest hs hrest)

theorem Function.whole_pieces (f : Function) : Whole f.pieces := by
  have hparams : Closed (Parameter.listPieces f.params) := by
    rw [Parameter.listPieces_eq]
    exact closed_separated (List.forall_mem_map.2 fun q _ => q.closed_pieces)
  have hhead : Closed ([.keyword .func, .space, .ident f.name.name] ++
      parenthesized (Parameter.listPieces f.params) ++
        (f.result.map TypeNote.pieces).getD []) := by
    intro rest hs hrest
    rw [List.append_assoc]
    refine apart_token settles_space ?_
    cases f.result with
    | none => exact closed_applied _ hparams rest hs hrest
    | some t =>
      exact closed_applied _ hparams _ (settles_symbol (by simp)) (t.closed_pieces rest hs hrest)
  have hdeclarations := whole_flatMap fun d (_ : d ∈ f.declarations) => d.whole_pieces
  have hbody := Stmt.whole_list fun s (_ : s ∈ f.body) => s.whole_pieces 1
  exact (((whole_line 0 hhead).append hdeclarations).append hbody).append
    (whole_line 0 (closed_token _))

theorem Program.apart_pieces (p : Program) : Apart p.pieces := by
  unfold Program.pieces
  induction p.functions with
  | nil => trivial
  | cons f fs ih =>
    cases fs with
    | nil =>
      have h := f.whole_pieces [] trivial
      rwa [List.append_nil] at h
    | cons g fs =>
      rw [Function.listPieces, List.append_assoc]
      · exact f.whole_pieces _ ih
      · exact List.cons_ne_nil _ _

theorem Program.tokens_text {p : Program} (h : ∀ k ∈ p.kinds, k.Written) :
    ∃ ts, tokens p.text = .ok ts ∧ p.wrapped.kinds = ts.map Token.kind := by
  have hw : ∀ k ∈ p.pieces.filterMap Piece.kind?, k.Written := by
    rw [p.kinds_pieces]
    exact Program.written_wrapped h
  obtain ⟨ts, hts, hkinds⟩ := p.apart_pieces.lexes hw 0
  refine ⟨ts, ?_, by rw [hkinds, p.kinds_pieces]⟩
  rw [tokens, text, Piece.text, String.toList_ofList, hts]

end Asl
