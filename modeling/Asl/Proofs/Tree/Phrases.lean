import Asl.Proofs.Tree.Kinds

/-!
# The grammar

The grammar says which lists of token kinds are phrases, with one rule for each of its alternatives.
For expressions it is ambiguous: it lets an operator stand between any two expressions. Every formed
tree flattens to a phrase, and every phrase is what a tree that is well nested flattens to, since
two well nested operands can be joined by an operator to one well nested tree.
-/
namespace Asl

inductive Phrase
  | program | function | params | paramList | result | declarations | names | type
  | statements | statement | target | expr | exprList | arguments | call
deriving DecidableEq, Repr

inductive Derives : Phrase → List TokenKind → Prop
  | oneFunction {ks} : Derives .function ks → Derives .program ks
  | moreFunctions {ks ks'} : Derives .function ks → Derives .program ks' →
      Derives .program (ks ++ ks')
  | function {x ps r ds ss} : Derives .params ps → Derives .result r → Derives .declarations ds →
      Derives .statements ss →
      Derives .function (.keyword .func :: .ident x :: (inParens ps ++ (r ++ (ds ++ (ss ++
        [.keyword .endfunc])))))
  | noParams : Derives .params []
  | params {ks} : Derives .paramList ks → Derives .params ks
  | oneParam {x ks} : Derives .type ks →
      Derives .paramList (.ident x :: .symbol .colon :: ks)
  | moreParams {x ks ks'} : Derives .type ks → Derives .paramList ks' →
      Derives .paramList ((.ident x :: .symbol .colon :: ks) ++ .symbol .comma :: ks')
  | noResult : Derives .result []
  | result {b : BaseType} : Derives .result [.symbol .colon, .keyword b.keyword]
  | noDeclarations : Derives .declarations []
  | moreDeclarations {ks ks' ks''} : Derives .names ks → Derives .type ks' →
      Derives .declarations ks'' →
      Derives .declarations ((.keyword .var :: (ks ++ .symbol .colon :: ks')) ++ ks'')
  | oneName {x} : Derives .names [.ident x]
  | moreNames {x ks} : Derives .names ks → Derives .names (.ident x :: .symbol .comma :: ks)
  | base {b : BaseType} : Derives .type [.keyword b.keyword]
  | array {n : Int} {b : BaseType} : 1 ≤ n →
      Derives .type [.keyword .array, .symbol .lbracket, .int n, .symbol .rbracket, .keyword .of,
        .keyword b.keyword]
  | noStatements : Derives .statements []
  | moreStatements {ks ks'} : Derives .statement ks → Derives .statements ks' →
      Derives .statements (ks ++ ks')
  | assign {ks ks'} : Derives .target ks → Derives .expr ks' →
      Derives .statement (ks ++ .symbol .assign :: (ks' ++ [.symbol .semicolon]))
  | ifThen {ks ss} : Derives .expr ks → Derives .statements ss →
      Derives .statement (.keyword .if :: (ks ++ .keyword .then :: (ss ++ [.keyword .endif])))
  | ifElse {ks ss ss'} : Derives .expr ks → Derives .statements ss → Derives .statements ss' →
      Derives .statement (.keyword .if :: (ks ++ .keyword .then :: (ss ++ .keyword .else ::
        (ss' ++ [.keyword .endif]))))
  | while {ks ss} : Derives .expr ks → Derives .statements ss →
      Derives .statement (.keyword .while :: (ks ++ .keyword .do :: (ss ++
        [.keyword .endwhile])))
  | for {x ks ss} : Derives .arguments ks → Derives .statements ss →
      Derives .statement (.keyword .for :: .ident x :: .keyword .in :: .keyword .range ::
        (inParens ks ++ .keyword .do :: (ss ++ [.keyword .endfor])))
  | procedure {ks} : Derives .call ks → Derives .statement (ks ++ [.symbol .semicolon])
  | read {ks} : Derives .target ks →
      Derives .statement (.keyword .read :: (ks ++ [.symbol .semicolon]))
  | write {ks} : Derives .expr ks →
      Derives .statement (.keyword .write :: (ks ++ [.symbol .semicolon]))
  | writeText {raw} : Derives .statement [.keyword .write, .text raw, .symbol .semicolon]
  | leave : Derives .statement [.keyword .return, .symbol .semicolon]
  | ret {ks} : Derives .expr ks →
      Derives .statement (.keyword .return :: (ks ++ [.symbol .semicolon]))
  | variable {x} : Derives .target [.ident x]
  | place {x ks} : Derives .expr ks → Derives .target (.ident x :: inBrackets ks)
  | paren {ks} : Derives .expr ks → Derives .expr (inParens ks)
  | element {x ks} : Derives .expr ks → Derives .expr (.ident x :: inBrackets ks)
  | value {ks} : Derives .call ks → Derives .expr ks
  | unary {op : UnaryOp} {ks} : Derives .expr ks → Derives .expr (op.token :: ks)
  | binary {op : BinaryOp} {ks ks'} : Derives .expr ks → Derives .expr ks' →
      Derives .expr (ks ++ op.token :: ks')
  | max {ks} : Derives .exprList ks → Derives .expr (.keyword .max :: inParens ks)
  | literal {l : Literal} : Derives .expr [l.token]
  | name {x} : Derives .expr [.ident x]
  | oneExpr {ks} : Derives .expr ks → Derives .exprList ks
  | moreExprs {ks ks'} : Derives .expr ks → Derives .exprList ks' →
      Derives .exprList (ks ++ .symbol .comma :: ks')
  | noArguments : Derives .arguments []
  | arguments {ks} : Derives .exprList ks → Derives .arguments ks
  | call {x ks} : Derives .arguments ks → Derives .call (.ident x :: inParens ks)

theorem Expr.derives_exprList {es : List Expr} (h : ∀ e ∈ es, Derives .expr e.kinds)
    (hne : es ≠ []) : Derives .exprList (commaSeparated (es.map Expr.kinds)) :=
  commaSeparated_induct (fun e he => .oneExpr (h e he)) (fun e he _ => .moreExprs (h e he)) hne

theorem Expr.derives_arguments {es : List Expr} (h : ∀ e ∈ es, Derives .expr e.kinds) :
    Derives .arguments (commaSeparated (es.map Expr.kinds)) := by
  by_cases hne : es = []
  · subst hne
    exact .noArguments
  · exact .arguments (derives_exprList h hne)

theorem Expr.derives {e : Expr} (h : e.Each Filled) : Derives .expr e.kinds := by
  induction e using Expr.ind with
  | literal m v => exact .literal
  | name m x => exact .name
  | element m base index ih => exact .element (ih (each_element.1 h).2)
  | call m callee args ih =>
    rw [kinds, kindsAll_eq_map]
    exact .value (.call (derives_arguments fun a ha => ih a ha ((each_call.1 h).2 a ha)))
  | paren m inner ih => exact .paren (ih (each_paren.1 h).2)
  | unary m op operand ih => exact .unary (ih (each_unary.1 h).2)
  | binary m op lhs rhs ihl ihr =>
    obtain ⟨-, hl, hr⟩ := each_binary.1 h
    exact .binary (ihl hl) (ihr hr)
  | max m args ih =>
    obtain ⟨hne, hargs⟩ := each_max.1 h
    rw [kinds, kindsAll_eq_map]
    exact .max (derives_exprList (fun a ha => ih a ha (hargs a ha)) hne)

theorem Target.derives {t : Target} (h : ∀ e ∈ t.exprs, e.Filled) :
    Derives .target t.kinds := by
  cases t with
  | name m x => exact .variable
  | element m base index => exact .place (Expr.derives h)

theorem Stmt.derives_all {ss : List Stmt} (h : ∀ s ∈ ss, Derives .statement s.kinds) :
    Derives .statements (Stmt.kindsAll ss) := by
  induction ss with
  | nil => exact .noStatements
  | cons s ss ih =>
    obtain ⟨head, tail⟩ := List.forall_mem_cons.1 h
    exact .moreStatements head (ih tail)

theorem Stmt.forall_mem_exprsAll {P : Expr → Prop} {ss : List Stmt} :
    (∀ e ∈ Stmt.exprsAll ss, P e) ↔ ∀ s ∈ ss, ∀ e ∈ s.exprs, P e := by
  rw [Stmt.exprsAll_eq_flatMap]
  simp only [List.mem_flatMap, forall_exists_index, and_imp]
  exact ⟨fun h s hs e he => h e s hs he, fun h e s hs he => h s hs e he⟩

theorem Stmt.derives {s : Stmt} (h : ∀ e ∈ s.exprs, e.Filled) : Derives .statement s.kinds := by
  induction s using Stmt.ind with
  | assign m target value =>
    obtain ⟨ht, hv⟩ := List.forall_mem_append.1 h
    exact .assign (Target.derives ht) (Expr.derives hv)
  | ifThen m condition body ih =>
    obtain ⟨hc, hb⟩ := List.forall_mem_append.1 h
    have hb := Stmt.forall_mem_exprsAll.1 hb
    exact .ifThen (Expr.derives hc) (derives_all fun s hs => ih s hs (hb s hs))
  | ifElse m condition body otherwise ihb iho =>
    obtain ⟨hc, h⟩ := List.forall_mem_append.1 h
    obtain ⟨hb, ho⟩ := List.forall_mem_append.1 h
    have hb := Stmt.forall_mem_exprsAll.1 hb
    have ho := Stmt.forall_mem_exprsAll.1 ho
    exact .ifElse (Expr.derives hc) (derives_all fun s hs => ihb s hs (hb s hs))
      (derives_all fun s hs => iho s hs (ho s hs))
  | while_ m condition body ih =>
    obtain ⟨hc, hb⟩ := List.forall_mem_append.1 h
    have hb := Stmt.forall_mem_exprsAll.1 hb
    exact .while (Expr.derives hc) (derives_all fun s hs => ih s hs (hb s hs))
  | for_ m control range body ih =>
    obtain ⟨hr, hb⟩ := List.forall_mem_append.1 h
    have hr := Expr.forall_mem_partsAll.1 hr
    have hb := Stmt.forall_mem_exprsAll.1 hb
    exact .for (Expr.derives_arguments fun e he => Expr.derives (hr e he))
      (derives_all fun s hs => ih s hs (hb s hs))
  | call m callee args =>
    have h := Expr.forall_mem_partsAll.1 h
    exact .procedure (.call (Expr.derives_arguments fun e he => Expr.derives (h e he)))
  | read m target => exact .read (Target.derives h)
  | write m value => exact .write (Expr.derives h)
  | writeText m raw => exact .writeText
  | ret m value =>
    cases value with
    | none => exact .leave
    | some value => exact .ret (Expr.derives h)

theorem TypeSpec.derives {t : TypeSpec} (h : t.Sized) : Derives .type t.kinds := by
  cases t with
  | base b => exact .base
  | array size elem =>
    have hsize : 1 ≤ size := h
    exact .array (by omega)

theorem Declaration.derives_all {ds : List Declaration} (hnamed : ∀ d ∈ ds, d.names ≠ [])
    (hsized : ∀ d ∈ ds, d.type.spec.Sized) :
    Derives .declarations (ds.flatMap Declaration.kinds) := by
  induction ds with
  | nil => exact .noDeclarations
  | cons d ds ih =>
    obtain ⟨hd, hnamed⟩ := List.forall_mem_cons.1 hnamed
    obtain ⟨hsize, hsized⟩ := List.forall_mem_cons.1 hsized
    refine .moreDeclarations ?_ (TypeSpec.derives hsize) (ih hnamed hsized)
    exact commaSeparated_induct (fun x _ => .oneName) (fun x _ ks => .moreNames) hd

theorem Function.derives {f : Function} (h : f.Formed) : Derives .function f.kinds := by
  refine .function ?_ ?_ ?_ ?_
  · by_cases hne : f.params = []
    · rw [hne]
      exact .noParams
    · refine .params (commaSeparated_induct (fun q hq => ?_) (fun q hq ks => ?_) hne)
      · exact .oneParam (TypeSpec.derives (h.params q hq))
      · exact .moreParams (TypeSpec.derives (h.params q hq))
  · cases hresult : f.result with
    | none => exact .noResult
    | some t =>
      obtain ⟨b, hb⟩ := h.result t hresult
      rw [TypeNote.resultKinds, hb]
      exact .result
  · exact Declaration.derives_all h.named h.sized
  · have h := Stmt.forall_mem_exprsAll.1 h.filled
    exact Stmt.derives_all fun s hs => Stmt.derives (h s hs)

theorem Program.derives {p : Program} (h : p.Formed) : Derives .program p.kinds := by
  rcases p with ⟨id, fs⟩
  obtain ⟨hne, hall⟩ := h
  rw [Program.kinds]
  dsimp only at hne hall ⊢
  induction fs with
  | nil => exact absurd rfl hne
  | cons f fs ih =>
    obtain ⟨head, tail⟩ := List.forall_mem_cons.1 hall
    rw [List.flatMap_cons]
    cases fs with
    | nil =>
      rw [List.flatMap_nil, List.append_nil]
      exact .oneFunction (Function.derives head)
    | cons g gs => exact .moreFunctions (Function.derives head) (ih (List.cons_ne_nil _ _) tail)

theorem Expr.strength_of_not_binary {e : Expr}
    (h : ∀ m op lhs rhs, e = .binary m op lhs rhs → False) : 6 ≤ e.strength := by
  cases e with
  | binary m op lhs rhs => exact (h m op lhs rhs rfl).elim
  | unary m op operand => exact Nat.le_refl 6
  | _ => exact Nat.le_succ 6

namespace Expr

/-- A prefix before the leftmost operand of a tree. -/
def prefixed (op : UnaryOp) : Expr → Expr
  | .binary m o lhs rhs => .binary m o (lhs.prefixed op) rhs
  | e => .unary .blank op e

theorem kinds_prefixed (op : UnaryOp) (e : Expr) : (e.prefixed op).kinds = op.token :: e.kinds := by
  fun_induction prefixed op e with
  | case1 m o lhs rhs ih => rw [kinds, ih, kinds, List.cons_append]
  | case2 e h => rw [kinds]

theorem le_strength_prefixed {op : UnaryOp} {e : Expr} {n : Nat} (hn : n ≤ 6)
    (h : n ≤ e.strength) : n ≤ (e.prefixed op).strength := by
  fun_cases prefixed op e with
  | case1 m o lhs rhs => exact h
  | case2 e _ => exact hn

theorem canonical_prefixed {op : UnaryOp} {e : Expr} (h : e.Each Canonical) :
    (e.prefixed op).Each Canonical := by
  fun_induction prefixed op e with
  | case1 m o lhs rhs ih =>
    obtain ⟨⟨hnested, -⟩, hlhs, hrhs⟩ := each_binary.1 h
    obtain ⟨hl, hr⟩ := nested_binary.1 hnested
    have hle : o.precedence ≤ 6 := Nat.le_trans o.precedence_le (by decide)
    refine each_binary.2 ⟨⟨nested_binary.2 ⟨?_, hr⟩, trivial⟩, ih hlhs, hrhs⟩
    exact le_strength_prefixed hle hl
  | case2 e hne =>
    exact each_unary.2 ⟨⟨nested_unary.2 (strength_of_not_binary hne), trivial⟩, h⟩

/-- An operand behind a tree, joined to as much of the tree as the operator binds. -/
def attached : Expr → BinaryOp → Expr → Expr
  | .binary m o lhs rhs, op, x =>
      if o.precedence < op.precedence then .binary m o lhs (rhs.attached op x)
      else .binary .blank op (.binary m o lhs rhs) x
  | e, op, x => .binary .blank op e x

theorem kinds_attached (e : Expr) (op : BinaryOp) (x : Expr) :
    (e.attached op x).kinds = e.kinds ++ op.token :: x.kinds := by
  fun_induction attached e op x with
  | case1 m o lhs rhs op x _ ih => simp only [kinds, ih, List.append_assoc, List.cons_append]
  | case2 m o lhs rhs op x _ => rw [kinds]
  | case3 e op x _ => rw [kinds]

theorem lt_strength_attached {op : BinaryOp} {x e : Expr} {n : Nat} (hop : n < op.precedence)
    (h : n < e.strength) : n < (e.attached op x).strength := by
  fun_cases attached e op x with
  | case1 m o lhs rhs _ => exact h
  | case2 m o lhs rhs _ => exact hop
  | case3 _ => exact hop

theorem canonical_attached {op : BinaryOp} {x e : Expr} (hx : x.Each Canonical)
    (hstrong : 6 ≤ x.strength) (h : e.Each Canonical) : (e.attached op x).Each Canonical := by
  have hlevel := op.precedence_le
  have hop : op.precedence < x.strength := by omega
  -- The operator goes down the right operands while it binds more tightly than what it meets.
  fun_induction attached e op x with
  | case1 m o lhs rhs op x hlt ih =>
    obtain ⟨⟨hnested, -⟩, hlhs, hrhs⟩ := each_binary.1 h
    obtain ⟨hl, hr⟩ := nested_binary.1 hnested
    have hrest := ih hx hstrong hrhs hlevel hop
    refine each_binary.2 ⟨⟨nested_binary.2 ⟨hl, ?_⟩, trivial⟩, hlhs, hrest⟩
    exact lt_strength_attached hlt hr
  | case2 m o lhs rhs op x hle =>
    exact each_binary.2 ⟨⟨nested_binary.2 ⟨Nat.le_of_not_lt hle, hop⟩, trivial⟩, h, hx⟩
  | case3 e op x hne =>
    have hstrength := strength_of_not_binary hne
    have hle : op.precedence ≤ e.strength := by omega
    exact each_binary.2 ⟨⟨nested_binary.2 ⟨hle, hop⟩, trivial⟩, h, hx⟩

/-- Two trees around an operator, the operands of the second attached one by one. -/
def joined (lhs : Expr) (op : BinaryOp) : Expr → Expr
  | .binary _ o r₁ r₂ => (lhs.joined op r₁).joined o r₂
  | x => lhs.attached op x

theorem kinds_joined (lhs : Expr) (op : BinaryOp) (e : Expr) :
    (lhs.joined op e).kinds = lhs.kinds ++ op.token :: e.kinds := by
  fun_induction joined lhs op e with
  | case1 lhs op m o r₁ r₂ ih₁ ih₂ =>
    simp only [ih₂, ih₁, kinds, List.append_assoc, List.cons_append]
  | case2 => exact kinds_attached ..

theorem canonical_joined {lhs : Expr} {op : BinaryOp} {e : Expr} (hl : lhs.Each Canonical)
    (h : e.Each Canonical) : (lhs.joined op e).Each Canonical := by
  fun_induction joined lhs op e with
  | case1 lhs op m o r₁ r₂ ih₁ ih₂ =>
    obtain ⟨-, h₁, h₂⟩ := each_binary.1 h
    exact ih₂ (ih₁ hl h₁) h₂
  | case2 _ _ _ hne => exact canonical_attached h (strength_of_not_binary hne) hl

end Expr

/-- The lists of kinds that canonical trees of a phrase flatten to. -/
def Phrase.Flattens : Phrase → List TokenKind → Prop
  | .program, ks => ∃ p : Program, p.WellNested ∧ p.Formed ∧ p.kinds = ks
  | .function, ks => ∃ f : Function,
      (∀ e ∈ Stmt.exprsAll f.body, e.Nested) ∧ f.Formed ∧ f.kinds = ks
  | .params, ks => ∃ qs : List Parameter,
      (∀ q ∈ qs, q.type.spec.Sized) ∧ commaSeparated (qs.map Parameter.kinds) = ks
  | .paramList, ks => ∃ qs : List Parameter, qs ≠ [] ∧
      (∀ q ∈ qs, q.type.spec.Sized) ∧ commaSeparated (qs.map Parameter.kinds) = ks
  | .result, ks => ∃ r : Option TypeNote,
      (∀ t, r = some t → ∃ b, t.spec = .base b) ∧ TypeNote.resultKinds r = ks
  | .declarations, ks => ∃ ds : List Declaration,
      (∀ d ∈ ds, d.names ≠ []) ∧ (∀ d ∈ ds, d.type.spec.Sized) ∧
        ds.flatMap Declaration.kinds = ks
  | .names, ks => ∃ xs : List Ident, xs ≠ [] ∧
      commaSeparated (xs.map fun x => [.ident x.name]) = ks
  | .type, ks => ∃ t : TypeSpec, t.Sized ∧ t.kinds = ks
  | .statements, ks => ∃ ss : List Stmt,
      (∀ e ∈ Stmt.exprsAll ss, e.Canonical) ∧ Stmt.kindsAll ss = ks
  | .statement, ks => ∃ s : Stmt, (∀ e ∈ s.exprs, e.Canonical) ∧ s.kinds = ks
  | .target, ks => ∃ t : Target, (∀ e ∈ t.exprs, e.Canonical) ∧ t.kinds = ks
  | .expr, ks => ∃ e : Expr, e.Each Expr.Canonical ∧ e.kinds = ks
  | .exprList, ks => ∃ es : List Expr, es ≠ [] ∧ (∀ e ∈ es, e.Each Expr.Canonical) ∧
      commaSeparated (es.map Expr.kinds) = ks
  | .arguments, ks => ∃ es : List Expr, (∀ e ∈ es, e.Each Expr.Canonical) ∧
      commaSeparated (es.map Expr.kinds) = ks
  | .call, ks => ∃ (x : Ident) (es : List Expr), (∀ e ∈ es, e.Each Expr.Canonical) ∧
      .ident x.name :: inParens (commaSeparated (es.map Expr.kinds)) = ks

theorem Derives.flattens {φ : Phrase} {ks : List TokenKind} (h : Derives φ ks) :
    φ.Flattens ks := by
  induction h with
  | oneFunction _ ih =>
    obtain ⟨f, hnested, hformed, rfl⟩ := ih
    refine ⟨⟨0, [f]⟩, ?_, ⟨List.cons_ne_nil _ _, by simpa using hformed⟩, ?_⟩
    · simpa [Program.WellNested, Program.exprs] using hnested
    · simp [Program.kinds]
  | moreFunctions _ _ ihf ihp =>
    obtain ⟨f, hnested, hformed, rfl⟩ := ihf
    obtain ⟨p, hnested', hformed', rfl⟩ := ihp
    refine ⟨⟨p.id, f :: p.functions⟩, ?_, ⟨List.cons_ne_nil _ _, ?_⟩, rfl⟩
    · exact List.forall_mem_append.2 ⟨hnested, hnested'⟩
    · exact List.forall_mem_cons.2 ⟨hformed, hformed'.formed⟩
  | @function x _ _ _ _ _ _ _ _ ihp ihr ihd ihs =>
    obtain ⟨qs, hqs, rfl⟩ := ihp
    obtain ⟨r, hr, rfl⟩ := ihr
    obtain ⟨ds, hnamed, hsized, rfl⟩ := ihd
    obtain ⟨ss, hss, rfl⟩ := ihs
    refine ⟨⟨.blank, ⟨.blank, x⟩, qs, r, ds, ss⟩, fun e he => (hss e he).1, ?_, rfl⟩
    exact ⟨hqs, hr, hnamed, hsized, fun e he => (hss e he).2⟩
  | noParams => exact ⟨[], by simp, rfl⟩
  | params _ ih =>
    obtain ⟨qs, -, h⟩ := ih
    exact ⟨qs, h⟩
  | @oneParam x _ _ ih =>
    obtain ⟨t, ht, rfl⟩ := ih
    exact ⟨[⟨⟨.blank, x⟩, ⟨.blank, t⟩⟩], List.cons_ne_nil _ _, by simpa using ht,
      commaSeparated_singleton _⟩
  | @moreParams x _ _ _ _ iht ihp =>
    obtain ⟨t, ht, rfl⟩ := iht
    obtain ⟨qs, hne, hqs, rfl⟩ := ihp
    refine ⟨⟨⟨.blank, x⟩, ⟨.blank, t⟩⟩ :: qs, List.cons_ne_nil _ _, ?_, ?_⟩
    · exact List.forall_mem_cons.2 ⟨ht, hqs⟩
    · exact commaSeparated_map_cons hne
  | noResult => exact ⟨none, by simp, rfl⟩
  | @result b => exact ⟨some ⟨.blank, .base b⟩, by simp, rfl⟩
  | noDeclarations => exact ⟨[], by simp, by simp, rfl⟩
  | moreDeclarations _ _ _ ihx iht ihd =>
    obtain ⟨xs, hne, rfl⟩ := ihx
    obtain ⟨t, ht, rfl⟩ := iht
    obtain ⟨ds, hnamed, hsized, rfl⟩ := ihd
    refine ⟨⟨xs, ⟨.blank, t⟩⟩ :: ds, ?_, ?_, rfl⟩
    · exact List.forall_mem_cons.2 ⟨hne, hnamed⟩
    · exact List.forall_mem_cons.2 ⟨ht, hsized⟩
  | @oneName x => exact ⟨[⟨.blank, x⟩], List.cons_ne_nil _ _, rfl⟩
  | @moreNames x _ _ ih =>
    obtain ⟨xs, hne, rfl⟩ := ih
    exact ⟨⟨.blank, x⟩ :: xs, List.cons_ne_nil _ _, commaSeparated_map_cons hne⟩
  | @base b => exact ⟨.base b, trivial, rfl⟩
  | @array n b hn =>
    refine ⟨.array n.toNat b, ?_, ?_⟩
    · change 1 ≤ n.toNat
      omega
    · rw [TypeSpec.kinds, Int.toNat_of_nonneg (by omega)]
  | noStatements => exact ⟨[], by simp [Stmt.exprsAll], rfl⟩
  | moreStatements _ _ ihs ihss =>
    obtain ⟨s, hs, rfl⟩ := ihs
    obtain ⟨ss, hss, rfl⟩ := ihss
    exact ⟨s :: ss, List.forall_mem_append.2 ⟨hs, hss⟩, rfl⟩
  | assign _ _ iht ihe =>
    obtain ⟨t, ht, rfl⟩ := iht
    obtain ⟨e, he, rfl⟩ := ihe
    exact ⟨.assign .blank t e, List.forall_mem_append.2 ⟨ht, he⟩, rfl⟩
  | ifThen _ _ ihe ihs =>
    obtain ⟨e, he, rfl⟩ := ihe
    obtain ⟨ss, hss, rfl⟩ := ihs
    exact ⟨.ifThen .blank e ss, List.forall_mem_append.2 ⟨he, hss⟩, rfl⟩
  | ifElse _ _ _ ihe ihs ihs' =>
    obtain ⟨e, he, rfl⟩ := ihe
    obtain ⟨ss, hss, rfl⟩ := ihs
    obtain ⟨ss', hss', rfl⟩ := ihs'
    refine ⟨.ifElse .blank e ss ss', List.forall_mem_append.2 ⟨he, ?_⟩, rfl⟩
    exact List.forall_mem_append.2 ⟨hss, hss'⟩
  | «while» _ _ ihe ihs =>
    obtain ⟨e, he, rfl⟩ := ihe
    obtain ⟨ss, hss, rfl⟩ := ihs
    exact ⟨.while .blank e ss, List.forall_mem_append.2 ⟨he, hss⟩, rfl⟩
  | @«for» x _ _ _ _ ihe ihs =>
    obtain ⟨es, hes, rfl⟩ := ihe
    obtain ⟨ss, hss, rfl⟩ := ihs
    refine ⟨.for .blank ⟨.blank, x⟩ es ss, List.forall_mem_append.2 ⟨?_, hss⟩, rfl⟩
    exact Expr.forall_mem_partsAll.2 hes
  | procedure _ ih =>
    obtain ⟨x, es, hes, rfl⟩ := ih
    exact ⟨.call .blank x es, Expr.forall_mem_partsAll.2 hes, rfl⟩
  | read _ ih =>
    obtain ⟨t, ht, rfl⟩ := ih
    exact ⟨.read .blank t, ht, rfl⟩
  | write _ ih =>
    obtain ⟨e, he, rfl⟩ := ih
    exact ⟨.write .blank e, he, rfl⟩
  | @writeText raw => exact ⟨.writeText .blank raw, by simp [Stmt.exprs], rfl⟩
  | leave => exact ⟨.ret .blank none, by simp [Stmt.exprs], rfl⟩
  | ret _ ih =>
    obtain ⟨e, he, rfl⟩ := ih
    exact ⟨.ret .blank (some e), he, rfl⟩
  | @«variable» x => exact ⟨.name .blank ⟨.blank, x⟩, by simp [Target.exprs], rfl⟩
  | @place x _ _ ih =>
    obtain ⟨e, he, rfl⟩ := ih
    exact ⟨.element .blank ⟨.blank, x⟩ e, he, rfl⟩
  | paren _ ih =>
    obtain ⟨e, he, rfl⟩ := ih
    exact ⟨.paren .blank e, Expr.each_paren.2 ⟨⟨trivial, trivial⟩, he⟩, rfl⟩
  | @element x _ _ ih =>
    obtain ⟨e, he, rfl⟩ := ih
    exact ⟨.element .blank ⟨.blank, x⟩ e, Expr.each_element.2 ⟨⟨trivial, trivial⟩, he⟩, rfl⟩
  | value _ ih =>
    obtain ⟨x, es, hes, rfl⟩ := ih
    refine ⟨.call .blank x es, Expr.each_call.2 ⟨⟨trivial, trivial⟩, hes⟩, ?_⟩
    rw [Expr.kinds, Expr.kindsAll_eq_map]
  | @unary op _ _ ih =>
    obtain ⟨e, he, rfl⟩ := ih
    exact ⟨e.prefixed op, Expr.canonical_prefixed he, Expr.kinds_prefixed op e⟩
  | @binary op _ _ _ _ ihl ihr =>
    obtain ⟨l, hl, rfl⟩ := ihl
    obtain ⟨r, hr, rfl⟩ := ihr
    exact ⟨l.joined op r, Expr.canonical_joined hl hr, Expr.kinds_joined l op r⟩
  | max _ ih =>
    obtain ⟨es, hne, hes, rfl⟩ := ih
    refine ⟨.max .blank es, Expr.each_max.2 ⟨⟨trivial, hne⟩, hes⟩, ?_⟩
    rw [Expr.kinds, Expr.kindsAll_eq_map]
  | @literal l =>
    exact ⟨.literal .blank l, Expr.each_literal.2 ⟨trivial, trivial⟩, rfl⟩
  | @name x =>
    exact ⟨.name .blank ⟨.blank, x⟩, Expr.each_name.2 ⟨trivial, trivial⟩, rfl⟩
  | oneExpr _ ih =>
    obtain ⟨e, he, rfl⟩ := ih
    exact ⟨[e], List.cons_ne_nil _ _, by simpa using he, commaSeparated_singleton _⟩
  | moreExprs _ _ ihe ihes =>
    obtain ⟨e, he, rfl⟩ := ihe
    obtain ⟨es, hne, hes, rfl⟩ := ihes
    exact ⟨e :: es, List.cons_ne_nil _ _, List.forall_mem_cons.2 ⟨he, hes⟩,
      commaSeparated_map_cons hne⟩
  | noArguments => exact ⟨[], by simp, rfl⟩
  | arguments _ ih =>
    obtain ⟨es, -, h⟩ := ih
    exact ⟨es, h⟩
  | @call x _ _ ih =>
    obtain ⟨es, hes, rfl⟩ := ih
    exact ⟨⟨.blank, x⟩, es, hes, rfl⟩

end Asl
