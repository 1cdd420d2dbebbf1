import Asl.Proofs.Tree.Parsed
import Asl.Proofs.Tree.Phrases
import Asl.Proofs.Tree.Taken

/-!
# Reading recognises the grammar

The parser gives a tree for just those token lists that the grammar allows. The tree flattens to the
tokens and is well nested, and no other well nested tree flattens to them. For this the tokens of
any well nested tree are read back, by induction on the tree: an operator is a round of the loop of
its level, which is entered at the innermost left operand, and the looser levels pass the expression
on.
-/
namespace Asl

open Mark (erased)

theorem Expr.strength_pos (e : Expr) : 1 ≤ e.strength := by
  cases e with
  | binary m op lhs rhs =>
    change 1 ≤ op.precedence
    cases op <;> decide
  | _ => exact Nat.succ_pos _

namespace Parser

open Attempt (fail)

variable {formed : Prop} {c : Cursor} {rest : List TokenKind}

/-! ## Expressions -/

/-- Where an expression of a level ends: neither a bracket nor an operator of the level is next. -/
def Stops (n : Nat) (ks : List TokenKind) : Prop :=
  ∀ k, ks.head? = some k → k ≠ .symbol .lparen ∧ k ≠ .symbol .lbracket ∧
    ∀ op, k = BinaryOp.token op → op.precedence < n

theorem Stops.mono {n n' : Nat} {ks : List TokenKind} (h : Stops n ks) (hn : n ≤ n') :
    Stops n' ks := by
  intro k hk
  obtain ⟨hparen, hbracket, hop⟩ := h k hk
  exact ⟨hparen, hbracket, fun op hk => Nat.lt_of_lt_of_le (hop op hk) hn⟩

theorem stops_operator {op : BinaryOp} {n : Nat} (h : op.precedence < n) (ks : List TokenKind) :
    Stops n (op.token :: ks) := by
  rintro _ ⟨⟩
  refine ⟨by cases op <;> simp [BinaryOp.token], by cases op <;> simp [BinaryOp.token], ?_⟩
  intro op' hop
  rwa [← BinaryOp.token_injective hop]

theorem stops_cons {k : TokenKind} {n : Nat} {ks : List TokenKind}
    (h : k ≠ .symbol .lparen ∧ k ≠ .symbol .lbracket ∧ k ∉ BinaryOp.all.map BinaryOp.token) :
    Stops n (k :: ks) := by
  rintro _ ⟨⟩
  exact ⟨h.1, h.2.1, fun op hop => absurd (hop ▸ List.mem_map_of_mem op.mem_all) h.2.2⟩

/-- Where the tokens of an expression come next, and behind them one of a level ends, a parser
passes them and gives the expression. -/
def TakesExpr (m : Parser Expr) (n : Nat) (e : Expr) : Prop :=
  ∀ c rest, c.kinds = e.kinds ++ rest → Stops n rest →
    Takes (e.Each Expr.Filled) c m rest fun a => a.mapMark erased = e.mapMark erased

/-- Where the tokens of an expression come next, a level makes of them and all that follows what its
loop makes of all that follows, with the expression on the left. -/
def Enters (l : Level) (e : Expr) : Prop :=
  ∀ (formed : Prop) (c : Cursor) (mid rest : List TokenKind) (P : Expr → Prop),
    c.kinds = e.kinds ++ mid → Stops (l.number + 1) mid → (formed → e.Each Expr.Filled) →
    (∀ a c', c'.kinds = mid → a.mapMark erased = e.mapMark erased →
      Takes formed c' (Construct.chain l a).parser rest P) →
    Takes formed c (Construct.level l).parser rest P

section

variable {l : Level} {e : Expr}

theorem TakesExpr.enters (h : TakesExpr l.operand (l.number + 1) e) : Enters l e :=
  fun _ c mid _ _ hc hstop hformed hloop => ((h c mid hc hstop).of_formed hformed).bind hloop

theorem Enters.takes (h : Enters l e) : TakesExpr (Construct.level l).parser l.number e := by
  -- No operator of the level is next, so the loop ends at once.
  intro c rest hc hstop
  refine h _ c rest rest _ hc (hstop.mono (Nat.le_succ _)) id fun a c' hc' ha => ?_
  change Takes _ c' (whileNext (operator? l.number) l.step a) rest _
  rw [l.loops a]
  refine takes_peek? ?_
  have hend : c'.kinds.head?.bind (operator? l.number) = none := by
    rw [hc', Option.bind_eq_none_iff]
    intro k hk
    refine Option.eq_none_iff_forall_ne_some.2 fun op hop => ?_
    obtain ⟨hn, htoken⟩ := operator?_eq_some.1 hop
    exact absurd ((hstop k hk).2.2 op htoken) (Nat.not_lt.2 (Nat.le_of_eq hn))
  rw [hend]
  exact takes_pure hc' ha

/-- One round of the loop passes the operator and the right operand. -/
theorem Enters.join {mark : Mark} {op : BinaryOp} {lhs rhs : Expr} (hlhs : Enters l lhs)
    (hrhs : TakesExpr l.operand (l.number + 1) rhs) (hop : l.number = op.precedence) :
    Enters l (.binary mark op lhs rhs) := by
  intro formed c mid rest P hc hstop hformed hloop
  rw [Expr.kinds, List.append_assoc, List.cons_append] at hc
  refine hlhs formed c _ rest P hc (stops_operator (Nat.lt_succ_of_le (Nat.le_of_eq hop.symm)) _)
    (fun h => (Expr.each_binary.1 (hformed h)).2.1) fun a c' hc' ha => ?_
  change Takes formed c' (whileNext (operator? l.number) l.step a) rest P
  rw [l.loops a]
  refine takes_peek? ?_
  rw [hc', List.head?_cons, Option.bind_some, operator?_eq_some.2 ⟨hop, rfl⟩]
  refine Takes.bind (l := mid)
    (P := fun a => a.mapMark erased = (Expr.binary mark op lhs rhs).mapMark erased)
    (takes_advance hc' fun c'' hc'' => ?_) fun a' c'' hc'' ha' => hloop a' c'' hc'' ha'
  refine ((hrhs c'' mid hc'' hstop).of_formed
    fun h => (Expr.each_binary.1 (hformed h)).2.2).bind fun b c₃ hc₃ hb => ?_
  refine takes_mark fun m' c₄ hc₄ => takes_pure (hc₄.trans hc₃) ?_
  rw [Expr.mapMark, Expr.mapMark, ha, hb]
  rfl

/-- Each level that may hold an expression gives it back. -/
structure TakesLevels (e : Expr) : Prop where
  tight : 6 ≤ e.strength → TakesExpr tight 6 e
  enters : ∀ l, l.number ≤ e.strength → Enters l e

theorem TakesLevels.operand (h : TakesLevels e) (hl : l.number < e.strength) :
    TakesExpr l.operand (l.number + 1) e := by
  cases l with
  | or => exact (h.enters .and hl).takes
  | and => exact (h.enters .relation hl).takes
  | relation => exact (h.enters .sum hl).takes
  | sum => exact (h.enters .product hl).takes
  | product => exact h.tight hl

theorem TakesLevels.expr (h : TakesLevels e) : TakesExpr expr 1 e := by
  rw [expr_eq]
  exact (h.enters .or e.strength_pos).takes

/-- The levels below the one of an expression pass it on. -/
theorem takesLevels_of (htight : 6 ≤ e.strength → TakesExpr tight 6 e)
    (hown : ∀ l, l.number = e.strength → Enters l e) : TakesLevels e := by
  have hlevel {l : Level} (h : l.number < e.strength → TakesExpr l.operand (l.number + 1) e)
      (hl : l.number ≤ e.strength) : Enters l e := by
    rcases Nat.eq_or_lt_of_le hl with heq | hlt
    · exact hown l heq
    · exact (h hlt).enters
  have hproduct := hlevel (l := .product) htight
  have hsum := hlevel (l := .sum) fun h => (hproduct h).takes
  have hrelation := hlevel (l := .relation) fun h => (hsum h).takes
  have hand := hlevel (l := .and) fun h => (hrelation h).takes
  have hor := hlevel (l := .or) fun h => (hand h).takes
  refine ⟨htight, fun l => ?_⟩
  cases l with
  | or => exact hor
  | and => exact hand
  | relation => exact hrelation
  | sum => exact hsum
  | product => exact hproduct

theorem takesLevels_of_tight (h : TakesExpr tight 6 e) (he : 6 ≤ e.strength) : TakesLevels e := by
  refine takesLevels_of (fun _ => h) fun l hl => ?_
  have hle : l.number ≤ 5 := by cases l <;> decide
  omega

end

theorem takes_index {i : Expr} (hi : TakesExpr expr 1 i)
    (hc : c.kinds = inBrackets i.kinds ++ rest) :
    Takes (i.Each Expr.Filled) c (index expr) rest fun a =>
      a.mapMark erased = i.mapMark erased := by
  rw [inBrackets, List.cons_append, List.append_assoc] at hc
  refine takes_expect hc fun c' hc => ?_
  refine (hi c' _ hc (stops_cons (by decide))).bind fun a c' hc ha => ?_
  exact takes_expect hc fun c' hc => takes_pure hc ha

theorem takes_arguments {args : List Expr} (hargs : ∀ a ∈ args, TakesExpr expr 1 a)
    (hc : c.kinds = inParens (commaSeparated (args.map Expr.kinds)) ++ rest) :
    Takes (∀ a ∈ args, a.Each Expr.Filled) c (arguments expr) rest fun as =>
      as.map (Expr.mapMark erased) = args.map (Expr.mapMark erased) := by
  rw [inParens, List.cons_append, List.append_assoc] at hc
  refine takes_expect hc fun c' hc => ?_
  refine (takes_listed (m := .argument) (A := Stops 1) (fun a ha c ks hc hks => ?_) (fun a _ => ?_)
    (fun _ => stops_cons (by decide)) (fun _ => stops_cons (by decide)) hc).bind
    fun as c' hc h => takes_expect hc fun c' hc => takes_pure hc h
  · exact (hargs a ha c ks hc hks).of_formed fun h => h a ha
  · obtain ⟨k, ks, hk, hparen, -⟩ := a.exists_cons_kinds
    exact ⟨k, ks, hk, hparen⟩

/-- Where the tokens of a primary expression come next, its first token tells which one it is, and
the expression is given back but for its mark. -/
def TakesPrimary (e : Expr) : Prop :=
  ∀ c rest, c.kinds = e.kinds ++ rest → Stops 7 rest →
    ∃ k ks, c.kinds = k :: ks ∧ UnaryOp.ofToken? k = none ∧
      Takes (e.Each Expr.Filled) c (unmarkedPrimary expr k) rest fun node =>
        ∀ mark, (node mark).mapMark erased = e.mapMark erased

theorem TakesPrimary.takes {e : Expr} (h : TakesPrimary e) : TakesExpr tight 6 e := by
  intro c rest hc hstop
  obtain ⟨k, ks, hk, hunary, htakes⟩ := h c rest hc (hstop.mono (Nat.le_succ 6))
  rw [tight_eq]
  refine takes_peek hk fun token htoken => ?_
  rw [htoken, hunary]
  refine takes_peek hk fun token htoken => ?_
  rw [htoken]
  refine htakes.bind fun node c' hc hnode => takes_mark fun mark c'' hc' => ?_
  exact takes_pure (hc'.trans hc) (hnode mark)

section

variable (mark : Mark)

theorem takes_literal (v : Literal) : TakesPrimary (.literal mark v) := by
  refine fun c rest hc _ => ⟨v.token, rest, hc, by cases v <;> rfl, ?_⟩
  have hunfold : unmarkedPrimary expr v.token = do
      advance
      return (.literal · v) := by cases v <;> rfl
  rw [hunfold]
  exact takes_advance hc fun c' hc => takes_pure hc fun mark => rfl

theorem takes_name (x : Ident) : TakesPrimary (.name mark x) := by
  refine fun c rest hc hstop => ⟨_, _, hc, rfl, takes_peekSecond? hc ?_⟩
  have hname : Takes ((Expr.name mark x).Each Expr.Filled) c (do
      let y ← ident
      return (.name · y)) rest fun (node : Mark → Expr) =>
        ∀ mark', (node mark').mapMark erased = (Expr.name mark x).mapMark erased := by
    refine (takes_ident hc).bind fun y c' hc hy => takes_pure hc fun mark' => ?_
    rw [Expr.mapMark, Expr.mapMark, Ident.mapMark, Ident.mapMark, hy]
    rfl
  split
  · rename_i h
    exact absurd rfl (hstop _ h).1
  · rename_i h
    exact absurd rfl (hstop _ h).2.1
  · exact hname

variable {mark}

theorem takes_element {base : Ident} {i : Expr} (hi : TakesExpr expr 1 i) :
    TakesPrimary (.element mark base i) := by
  refine fun c rest hc _ => ⟨_, _, hc, rfl, takes_peekSecond? hc ?_⟩
  refine (takes_ident hc).bind fun y c' hc hy => ?_
  refine ((takes_index hi hc).of_formed fun h => (Expr.each_element.1 h).2).bind
    fun a c' hc ha => takes_pure hc fun mark' => ?_
  rw [Expr.mapMark, Expr.mapMark, Ident.mapMark, Ident.mapMark, hy, ha]
  rfl

theorem takes_paren {inner : Expr} (h : TakesExpr expr 1 inner) :
    TakesPrimary (.paren mark inner) := by
  intro c rest hc _
  simp only [Expr.kinds, inParens, List.cons_append, List.append_assoc] at hc
  refine ⟨_, _, hc, rfl, takes_advance hc fun c' hc => ?_⟩
  refine ((h c' _ hc (stops_cons (by decide))).of_formed fun h => (Expr.each_paren.1 h).2).bind
    fun a c' hc ha => takes_expect hc fun c' hc => takes_pure hc fun mark' => ?_
  rw [Expr.mapMark, Expr.mapMark, ha]
  rfl

theorem takes_callExpr {callee : Ident} {args : List Expr}
    (hargs : ∀ a ∈ args, TakesExpr expr 1 a) : TakesPrimary (.call mark callee args) := by
  intro c rest hc _
  simp only [Expr.kinds, Expr.kindsAll_eq_map] at hc
  refine ⟨_, _, hc, rfl, takes_peekSecond? hc ?_⟩
  refine (takes_ident hc).bind fun y c' hc hy => ?_
  refine ((takes_arguments hargs hc).of_formed fun h => (Expr.each_call.1 h).2).bind
    fun as c' hc has => takes_pure hc fun mark' => ?_
  simp only [Expr.mapMark, Expr.mapMarkAll_eq_map, Ident.mapMark, hy, has]
  rfl

theorem takes_max {args : List Expr} (hargs : ∀ a ∈ args, TakesExpr expr 1 a) :
    TakesPrimary (.max mark args) := by
  intro c rest hc _
  simp only [Expr.kinds, Expr.kindsAll_eq_map] at hc
  refine ⟨_, _, hc, rfl, takes_advance hc fun c' hc => ?_⟩
  refine ((takes_arguments hargs hc).of_formed fun h => (Expr.each_max.1 h).2).bind
    fun as c' hc has => ?_
  by_cases hempty : as.isEmpty = true
  · rw [if_pos hempty]
    refine takes_fail fun h => (Expr.each_max.1 h).1 ?_
    rw [List.isEmpty_iff.1 hempty, List.map_nil] at has
    exact List.map_eq_nil_iff.1 has.symm
  · rw [if_neg hempty]
    refine takes_pure hc fun mark' => ?_
    simp only [Expr.mapMark, Expr.mapMarkAll_eq_map, has]
    rfl

theorem takes_unary {op : UnaryOp} {inner : Expr} (h : TakesExpr tight 6 inner) :
    TakesExpr tight 6 (.unary mark op inner) := by
  intro c rest hc hstop
  rw [tight_eq]
  refine takes_peek hc fun token htoken => ?_
  rw [htoken, UnaryOp.ofToken?_token]
  refine takes_advance hc fun c' hc => ?_
  refine ((h c' rest hc hstop).of_formed fun h => (Expr.each_unary.1 h).2).bind
    fun a c' hc ha => takes_mark fun mark' c' hc' => takes_pure (hc'.trans hc) ?_
  rw [Expr.mapMark, Expr.mapMark, ha]
  rfl

end

theorem takesLevels (e : Expr) (he : e.Each Expr.Nested) : TakesLevels e := by
  have hprimary {e : Expr} (h : TakesPrimary e) (h7 : 6 ≤ e.strength) : TakesLevels e :=
    takesLevels_of_tight h.takes h7
  induction e using Expr.ind with
  | literal mark v => exact hprimary (takes_literal mark v) (Nat.le_succ 6)
  | name mark x => exact hprimary (takes_name mark x) (Nat.le_succ 6)
  | element mark base i ih =>
    exact hprimary (takes_element (ih (Expr.each_element.1 he).2).expr) (Nat.le_succ 6)
  | call mark callee args ih =>
    have hargs := (Expr.each_call.1 he).2
    exact hprimary (takes_callExpr fun a ha => (ih a ha (hargs a ha)).expr) (Nat.le_succ 6)
  | paren mark inner ih =>
    exact hprimary (takes_paren (ih (Expr.each_paren.1 he).2).expr) (Nat.le_succ 6)
  | unary mark op inner ih =>
    obtain ⟨hnested, hinner⟩ := Expr.each_unary.1 he
    exact takesLevels_of_tight (takes_unary ((ih hinner).tight (Expr.nested_unary.1 hnested)))
      (Nat.le_refl 6)
  | binary mark op lhs rhs ihl ihr =>
    obtain ⟨hnested, hlhs, hrhs⟩ := Expr.each_binary.1 he
    obtain ⟨hl, hr⟩ := Expr.nested_binary.1 hnested
    refine takesLevels_of (fun h => ?_) fun l hlevel => ?_
    · exact absurd (Nat.le_trans h op.precedence_le) (by decide)
    · change l.number = op.precedence at hlevel
      rw [← hlevel] at hl hr
      exact ((ihl hlhs).enters l hl).join ((ihr hrhs).operand hr) hlevel
  | max mark args ih =>
    have hargs := (Expr.each_max.1 he).2
    exact hprimary (takes_max fun a ha => (ih a ha (hargs a ha)).expr) (Nat.le_succ 6)

theorem takes_expr {e : Expr} (he : e.Each Expr.Nested) : TakesExpr expr 1 e :=
  (takesLevels e he).expr

/-! ## Statements -/

theorem takes_target {t : Target} (ht : ∀ e ∈ t.exprs, e.Nested) (hc : c.kinds = t.kinds ++ rest)
    (hstop : Stops 1 rest) :
    Takes (∀ e ∈ t.exprs, e.Filled) c target rest fun a =>
      a.mapMark erased = t.mapMark erased := by
  obtain ⟨x, ks, hx⟩ := t.exists_cons_kinds
  have hhead : c.kinds = .ident x :: (ks ++ rest) := by rw [hc, hx]; rfl
  refine takes_peek hhead fun token _ => (takes_ident hhead).bind fun y c' hc' hy => takes_peek? ?_
  cases t with
  | name m x' =>
    cases hx
    rw [if_neg]
    · refine takes_mark fun mark c'' hc'' => takes_pure (hc''.trans hc') ?_
      rw [Target.mapMark, Target.mapMark, Ident.mapMark, Ident.mapMark, hy]
      rfl
    · intro h
      rw [hc'] at h
      exact (hstop _ h).2.1 rfl
  | element m base i =>
    cases hx
    rw [if_pos (by rw [hc']; rfl)]
    refine (takes_index (takes_expr ht) hc').bind fun a c' hc' ha => ?_
    refine takes_mark fun mark c'' hc'' => takes_pure (hc''.trans hc') ?_
    rw [Target.mapMark, Target.mapMark, Ident.mapMark, Ident.mapMark, hy, ha]
    rfl

/-- Where the tokens of a well nested statement come next, it is given back. -/
def TakesStmt (s : Stmt) : Prop :=
  (∀ e ∈ s.exprs, e.Nested) → ∀ c rest, c.kinds = s.kinds ++ rest →
    Takes (∀ e ∈ s.exprs, e.Filled) c oneStatement rest fun a => a.mapMark erased = s.mapMark erased

theorem takes_body {ss : List Stmt} (hss : ∀ s ∈ ss, TakesStmt s)
    (hnested : ∀ e ∈ Stmt.exprsAll ss, e.Nested) {k : TokenKind} (hclose : closes k = true)
    (hc : c.kinds = Stmt.kindsAll ss ++ k :: rest)
    (hfilled : formed → ∀ e ∈ Stmt.exprsAll ss, e.Filled) :
    Takes formed c body (k :: rest) fun as =>
      as.map (Stmt.mapMark erased) = ss.map (Stmt.mapMark erased) := by
  rw [Stmt.kindsAll_eq_flatMap] at hc
  rw [body_eq]
  refine takes_items (i := .statement) (fun s _ ks => ?_) (fun s hs c ks hc => ?_) ?_ hc
  · obtain ⟨k, ks', hk, hopen, -⟩ := s.exists_cons_kinds
    rw [hk]
    change (if closes k then none else some ()) = some ()
    rw [hopen]
    rfl
  · exact (hss s hs (Stmt.forall_mem_exprsAll.1 hnested s hs) c ks hc).of_formed
      fun h => Stmt.forall_mem_exprsAll.1 (hfilled h) s hs
  · change (if closes k then none else some ()) = none
    rw [hclose]
    rfl

theorem takes_value {e : Expr} {k : TokenKind} {ks : List TokenKind} (he : e.Each Expr.Nested)
    (hk : k ≠ .symbol .lparen ∧ k ≠ .symbol .lbracket ∧ k ∉ BinaryOp.all.map BinaryOp.token)
    (hc : c.kinds = e.kinds ++ k :: ks) (hfilled : formed → e.Each Expr.Filled) :
    Takes formed c expr (k :: ks) fun a => a.mapMark erased = e.mapMark erased :=
  (takes_expr he c _ hc (stops_cons hk)).of_formed hfilled

theorem takes_values {es : List Expr} (hes : ∀ e ∈ Expr.partsAll es, e.Nested)
    (hc : c.kinds = inParens (commaSeparated (es.map Expr.kinds)) ++ rest)
    (hfilled : formed → ∀ e ∈ Expr.partsAll es, e.Filled) :
    Takes formed c (arguments expr) rest fun as =>
      as.map (Expr.mapMark erased) = es.map (Expr.mapMark erased) :=
  (takes_arguments (fun e he => takes_expr (Expr.forall_mem_partsAll.1 hes e he)) hc).of_formed
    fun h => Expr.forall_mem_partsAll.1 (hfilled h)

/-- Where the tokens of a statement come next, its first token tells which statement it is, and the
rest of it is given back, but for its mark and for the semicolon of a simple one. -/
def TakesUnmarked (s : Stmt) (c : Cursor) (rest : List TokenKind) : Prop :=
  ∃ k ks simple, c.kinds = k :: ks ∧
    Takes (∀ e ∈ s.exprs, e.Filled) c (unmarkedStatement body k)
      (if simple then .symbol .semicolon :: rest else rest) fun r =>
        r.1 = simple ∧ ∀ mark, (r.2 mark).mapMark erased = s.mapMark erased

theorem TakesUnmarked.takes {s : Stmt} (h : TakesUnmarked s c rest) :
    Takes (∀ e ∈ s.exprs, e.Filled) c oneStatement rest fun a =>
      a.mapMark erased = s.mapMark erased := by
  obtain ⟨k, ks, simple, hk, htakes⟩ := h
  rw [oneStatement_eq]
  refine takes_peek hk fun token htoken => ?_
  rw [htoken]
  refine takes_peek hk fun token _ => htakes.bind fun r c' hc' hr => ?_
  obtain ⟨rfl, hnode⟩ := hr
  have hrest {c' : Cursor} (hc' : c'.kinds = rest) : Takes (∀ e ∈ s.exprs, e.Filled) c' (do
      return r.2 (← mark token.start)) rest fun a => a.mapMark erased = s.mapMark erased :=
    takes_mark fun m c'' hc'' => takes_pure (hc''.trans hc') (hnode m)
  rcases r with ⟨simple, node⟩
  cases simple with
  | true => exact takes_expect hc' fun c'' hc'' => hrest hc''
  | false => exact hrest hc'

section

variable {mark : Mark} {condition value : Expr} {yes no : List Stmt} {target : Target}

theorem takes_assign (hs : ∀ e ∈ (Stmt.assign mark target value).exprs, e.Nested)
    (hc : c.kinds = (Stmt.assign mark target value).kinds ++ rest) :
    TakesUnmarked (.assign mark target value) c rest := by
  obtain ⟨ht, hv⟩ := List.forall_mem_append.1 hs
  obtain ⟨x, ks, hx⟩ := target.exists_cons_kinds
  simp only [Stmt.kinds, List.append_assoc, List.cons_append, List.nil_append] at hc
  have hhead : c.kinds = .ident x :: (ks ++ .symbol .assign :: (value.kinds ++
      .symbol .semicolon :: rest)) := by rw [hc, hx]; rfl
  have hassign : Takes (∀ e ∈ (Stmt.assign mark target value).exprs, e.Filled) c (do
      let place ← Parser.target
      expect (.symbol .assign)
      let value ← expr
      return (true, (Stmt.assign · place value))) (.symbol .semicolon :: rest)
      fun (r : Bool × (Mark → Stmt)) => r.1 = true ∧ ∀ mark', (r.2 mark').mapMark erased =
        (Stmt.assign mark target value).mapMark erased := by
    refine ((takes_target ht hc (stops_cons (by decide))).of_formed
      fun h => (List.forall_mem_append.1 h).1).bind fun a c' hc ha => ?_
    refine takes_expect hc fun c' hc => ?_
    refine (takes_value hv (by decide) hc fun h => (List.forall_mem_append.1 h).2).bind
      fun b c' hc hb => takes_pure hc ⟨rfl, fun mark' => ?_⟩
    rw [Stmt.mapMark, Stmt.mapMark, ha, hb]
    rfl
  refine ⟨.ident x, _, true, hhead, takes_peekSecond? hhead ?_⟩
  cases target with
  | name m' y =>
    cases hx
    exact hassign
  | element m' base i =>
    cases hx
    exact hassign

theorem takes_ifThen (hyes : ∀ s ∈ yes, TakesStmt s)
    (hs : ∀ e ∈ (Stmt.ifThen mark condition yes).exprs, e.Nested)
    (hc : c.kinds = (Stmt.ifThen mark condition yes).kinds ++ rest) :
    TakesUnmarked (.ifThen mark condition yes) c rest := by
  obtain ⟨hcond, hs⟩ := List.forall_mem_append.1 hs
  simp only [Stmt.kinds, List.append_assoc, List.cons_append, List.nil_append] at hc
  refine ⟨_, _, false, hc, takes_advance hc fun c' hc => ?_⟩
  refine (takes_value hcond (by decide) hc fun h => (List.forall_mem_append.1 h).1).bind
    fun a c' hc ha => takes_expect hc fun c' hc => ?_
  refine (takes_body hyes hs rfl hc fun h => (List.forall_mem_append.1 h).2).bind
    fun as c' hc has => takes_peek? ?_
  rw [if_neg (by rw [hc]; simp)]
  refine takes_expect hc fun c' hc => takes_pure hc ⟨rfl, fun mark' => ?_⟩
  simp only [Stmt.mapMark, Stmt.mapMarkAll_eq_map, ha, has]
  rfl

theorem takes_ifElse (hyes : ∀ s ∈ yes, TakesStmt s) (hno : ∀ s ∈ no, TakesStmt s)
    (hs : ∀ e ∈ (Stmt.ifElse mark condition yes no).exprs, e.Nested)
    (hc : c.kinds = (Stmt.ifElse mark condition yes no).kinds ++ rest) :
    TakesUnmarked (.ifElse mark condition yes no) c rest := by
  obtain ⟨hcond, hs⟩ := List.forall_mem_append.1 hs
  obtain ⟨hsyes, hsno⟩ := List.forall_mem_append.1 hs
  simp only [Stmt.kinds, List.append_assoc, List.cons_append, List.nil_append] at hc
  refine ⟨_, _, false, hc, takes_advance hc fun c' hc => ?_⟩
  refine (takes_value hcond (by decide) hc fun h => (List.forall_mem_append.1 h).1).bind
    fun a c' hc ha => takes_expect hc fun c' hc => ?_
  refine (takes_body hyes hsyes rfl hc fun h =>
    (List.forall_mem_append.1 (List.forall_mem_append.1 h).2).1).bind
    fun as c' hc has => takes_peek? ?_
  rw [if_pos (by rw [hc]; rfl)]
  refine takes_advance hc fun c' hc => ?_
  refine (takes_body hno hsno rfl hc fun h =>
    (List.forall_mem_append.1 (List.forall_mem_append.1 h).2).2).bind fun bs c' hc hbs => ?_
  refine takes_expect hc fun c' hc => takes_pure hc ⟨rfl, fun mark' => ?_⟩
  simp only [Stmt.mapMark, Stmt.mapMarkAll_eq_map, ha, has, hbs]
  rfl

theorem takes_while (hyes : ∀ s ∈ yes, TakesStmt s)
    (hs : ∀ e ∈ (Stmt.while mark condition yes).exprs, e.Nested)
    (hc : c.kinds = (Stmt.while mark condition yes).kinds ++ rest) :
    TakesUnmarked (.while mark condition yes) c rest := by
  obtain ⟨hcond, hs⟩ := List.forall_mem_append.1 hs
  simp only [Stmt.kinds, List.append_assoc, List.cons_append, List.nil_append] at hc
  refine ⟨_, _, false, hc, takes_advance hc fun c' hc => ?_⟩
  refine (takes_value hcond (by decide) hc fun h => (List.forall_mem_append.1 h).1).bind
    fun a c' hc ha => takes_expect hc fun c' hc => ?_
  refine (takes_body hyes hs rfl hc fun h => (List.forall_mem_append.1 h).2).bind
    fun as c' hc has => ?_
  refine takes_expect hc fun c' hc => takes_pure hc ⟨rfl, fun mark' => ?_⟩
  simp only [Stmt.mapMark, Stmt.mapMarkAll_eq_map, ha, has]
  rfl

theorem takes_for {control : Ident} {range : List Expr} (hyes : ∀ s ∈ yes, TakesStmt s)
    (hs : ∀ e ∈ (Stmt.for mark control range yes).exprs, e.Nested)
    (hc : c.kinds = (Stmt.for mark control range yes).kinds ++ rest) :
    TakesUnmarked (.for mark control range yes) c rest := by
  obtain ⟨hrange, hs⟩ := List.forall_mem_append.1 hs
  simp only [Stmt.kinds, List.append_assoc, List.cons_append, List.nil_append] at hc
  refine ⟨_, _, false, hc, takes_advance hc fun c' hc => ?_⟩
  refine (takes_ident hc).bind fun y c' hc hy => ?_
  refine takes_expect hc fun c' hc => takes_expect hc fun c' hc => ?_
  refine (takes_values hrange hc fun h => (List.forall_mem_append.1 h).1).bind
    fun rs c' hc hrs => takes_expect hc fun c' hc => ?_
  refine (takes_body hyes hs rfl hc fun h => (List.forall_mem_append.1 h).2).bind
    fun as c' hc has => ?_
  refine takes_expect hc fun c' hc => takes_pure hc ⟨rfl, fun mark' => ?_⟩
  simp only [Stmt.mapMark, Stmt.mapMarkAll_eq_map, Ident.mapMark, hy, hrs, has]
  rfl

theorem takes_call {callee : Ident} {args : List Expr}
    (hs : ∀ e ∈ (Stmt.call mark callee args).exprs, e.Nested)
    (hc : c.kinds = (Stmt.call mark callee args).kinds ++ rest) :
    TakesUnmarked (.call mark callee args) c rest := by
  simp only [Stmt.kinds, List.append_assoc, List.cons_append, List.nil_append] at hc
  refine ⟨_, _, true, hc, takes_peekSecond? hc ?_⟩
  refine (takes_ident hc).bind fun y c' hc hy => (takes_values hs hc id).bind
    fun as c' hc has => takes_pure hc ⟨rfl, fun mark' => ?_⟩
  simp only [Stmt.mapMark, Ident.mapMark, hy, has]
  rfl

theorem takes_read (hs : ∀ e ∈ target.exprs, e.Nested)
    (hc : c.kinds = (Stmt.read mark target).kinds ++ rest) :
    TakesUnmarked (.read mark target) c rest := by
  simp only [Stmt.kinds, List.append_assoc, List.cons_append, List.nil_append] at hc
  refine ⟨_, _, true, hc, takes_advance hc fun c' hc => ?_⟩
  refine (takes_target hs hc (stops_cons (by decide))).bind fun a c' hc ha =>
    takes_pure hc ⟨rfl, fun mark' => ?_⟩
  rw [Stmt.mapMark, Stmt.mapMark, ha]
  rfl

theorem takes_write (hs : value.Each Expr.Nested)
    (hc : c.kinds = (Stmt.write mark value).kinds ++ rest) :
    TakesUnmarked (.write mark value) c rest := by
  simp only [Stmt.kinds, List.append_assoc, List.cons_append, List.nil_append] at hc
  refine ⟨_, _, true, hc, takes_advance hc fun c' hc => takes_peek? ?_⟩
  obtain ⟨k, ks, hk, -, -, htext⟩ := value.exists_cons_kinds
  split
  · rename_i raw h
    rw [hc, hk] at h
    exact absurd (Option.some.inj h) (htext raw)
  · refine (takes_value hs (by decide) hc id).bind fun a c' hc ha =>
      takes_pure hc ⟨rfl, fun mark' => ?_⟩
    rw [Stmt.mapMark, Stmt.mapMark, ha]
    rfl

theorem takes_writeText {raw : String}
    (hc : c.kinds = (Stmt.writeText mark raw).kinds ++ rest) :
    TakesUnmarked (.writeText mark raw) c rest := by
  simp only [Stmt.kinds, List.cons_append, List.nil_append] at hc
  refine ⟨_, _, true, hc, takes_advance hc fun c' hc => takes_peek? ?_⟩
  rw [hc, List.head?_cons]
  exact takes_advance hc fun c' hc => takes_pure hc ⟨rfl, fun mark' => rfl⟩

theorem takes_ret {result : Option Expr} (hs : ∀ e ∈ (Stmt.ret mark result).exprs, e.Nested)
    (hc : c.kinds = (Stmt.ret mark result).kinds ++ rest) :
    TakesUnmarked (.ret mark result) c rest := by
  cases result with
  | none =>
    refine ⟨_, _, true, hc, takes_advance hc fun c' hc => takes_peek? ?_⟩
    rw [if_pos (by rw [hc]; rfl)]
    exact takes_pure hc ⟨rfl, fun mark' => rfl⟩
  | some value =>
    simp only [Stmt.kinds, List.append_assoc, List.cons_append, List.nil_append] at hc
    refine ⟨_, _, true, hc, takes_advance hc fun c' hc => takes_peek? ?_⟩
    obtain ⟨k, ks, hk, -, hsemi, -⟩ := value.exists_cons_kinds
    rw [if_neg (by rw [hc, hk]; exact fun h => hsemi (Option.some.inj h))]
    refine (takes_value hs (by decide) hc id).bind fun a c' hc ha =>
      takes_pure hc ⟨rfl, fun mark' => ?_⟩
    rw [Stmt.mapMark, Stmt.mapMark, Option.map_some, Option.map_some, ha]
    rfl

end

theorem takes_statement (s : Stmt) : TakesStmt s := by
  induction s using Stmt.ind with
  | assign mark target value => exact fun hs c rest hc => (takes_assign hs hc).takes
  | ifThen mark condition yes ih => exact fun hs c rest hc => (takes_ifThen ih hs hc).takes
  | ifElse mark condition yes no ihyes ihno =>
    exact fun hs c rest hc => (takes_ifElse ihyes ihno hs hc).takes
  | while_ mark condition yes ih => exact fun hs c rest hc => (takes_while ih hs hc).takes
  | for_ mark control range yes ih => exact fun hs c rest hc => (takes_for ih hs hc).takes
  | call mark callee args => exact fun hs c rest hc => (takes_call hs hc).takes
  | read mark target => exact fun hs c rest hc => (takes_read hs hc).takes
  | write mark value => exact fun hs c rest hc => (takes_write hs hc).takes
  | writeText mark raw => exact fun _ c rest hc => (takes_writeText hc).takes
  | ret mark value => exact fun hs c rest hc => (takes_ret hs hc).takes

/-! ## Functions and programs -/

theorem takes_parameter {q : Parameter} (hc : c.kinds = q.kinds ++ rest) :
    Takes q.type.spec.Sized c parameter rest fun a => a.mapMark erased = q.mapMark erased := by
  refine (takes_ident hc).bind fun y c' hc hy => takes_expect hc fun c' hc => ?_
  refine (takes_typeNote hc).bind fun t c' hc ht => takes_pure hc ?_
  rw [Parameter.mapMark, Parameter.mapMark, Ident.mapMark, Ident.mapMark, hy, ht]
  rfl

theorem takes_result {r : Option TypeNote} (hc : c.kinds = TypeNote.resultKinds r ++ rest)
    (hstop : rest.head? ≠ some (.symbol .colon)) :
    Takes (∀ t, r = some t → ∃ b, t.spec = .base b) c result rest fun r' =>
      r'.map (TypeNote.mapMark erased) = r.map (TypeNote.mapMark erased) := by
  refine takes_peek? ?_
  cases r with
  | none =>
    rw [TypeNote.resultKinds, List.nil_append] at hc
    rw [if_neg (by rw [hc]; exact hstop)]
    exact takes_pure hc rfl
  | some t =>
    rw [if_pos (by rw [hc]; rfl)]
    refine takes_advance hc fun c' hc => ?_
    rcases t with ⟨m, spec⟩
    cases spec with
    | base b =>
      refine takes_peek hc fun token _ => (takes_baseType hc).bind fun b' c' hc h => ?_
      refine takes_mark fun m' c'' hc' => takes_pure (hc'.trans hc) ?_
      rw [h]
      rfl
    | array size elem =>
      refine takes_peek hc fun token _ => Takes.bind (l := []) (P := fun _ => False) ?_
        (by rintro _ _ _ ⟨⟩)
      refine takes_peek? ?_
      rw [hc]
      refine takes_fail fun h => ?_
      obtain ⟨b, hb⟩ := h _ rfl
      cases hb

theorem takes_declared {d : Declaration} {ks : List TokenKind} (hd : d.kinds = .keyword .var :: ks)
    (hc : c.kinds = ks ++ rest) :
    Takes (d.names ≠ [] ∧ d.type.spec.Sized) c declared rest fun a =>
      a.mapMark erased = d.mapMark erased := by
  cases hd
  simp only [List.cons_append, List.append_assoc] at hc
  have hnames : Takes (d.names ≠ [] ∧ d.type.spec.Sized) c (separated ident)
      (.symbol .colon :: (d.type.spec.kinds ++ rest)) fun xs =>
        xs.map (Ident.mapMark erased) = d.names.map (Ident.mapMark erased) := by
    by_cases hne : d.names = []
    · refine Takes.bind (l := []) (P := fun _ => False) ?_ (by rintro _ _ _ ⟨⟩)
      refine takes_peek? ?_
      rw [hc, hne]
      exact takes_fail fun h => h.1 rfl
    · refine takes_separated (m := .name) (A := fun _ => True) (fun x _ c ks hc _ => ?_)
        (fun _ => trivial) trivial (by simp) hne hc
      refine (takes_ident hc).mono fun y hy => ?_
      rw [Ident.mapMark, Ident.mapMark, hy]
      rfl
  refine hnames.bind fun xs c' hc hxs => takes_expect hc fun c' hc => ?_
  refine ((takes_typeNote hc).of_formed And.right).bind fun t c' hc ht => takes_pure hc ?_
  rw [Declaration.mapMark, Declaration.mapMark, hxs, ht]

theorem takes_declarations {ds : List Declaration}
    (hc : c.kinds = ds.flatMap Declaration.kinds ++ rest)
    (hstop : rest.head? ≠ some (.keyword .var)) :
    Takes (∀ d ∈ ds, d.names ≠ [] ∧ d.type.spec.Sized) c declarations rest fun as =>
      as.map (Declaration.mapMark erased) = ds.map (Declaration.mapMark erased) := by
  rw [declarations_eq]
  refine takes_items (i := .declaration) (fun _ _ _ => rfl)
    (fun d hd c ks hc => (takes_declared rfl hc).of_formed fun h => h d hd) ?_ hc
  cases hhead : rest.head? with
  | none => rfl
  | some k => exact if_neg fun h => hstop (by rw [hhead, h])

theorem head?_body (ss : List Stmt) (ks : List TokenKind) : ∃ k,
    (Stmt.kindsAll ss ++ .keyword .endfunc :: ks).head? = some k ∧
      k ≠ .keyword .var ∧ k ≠ .symbol .colon := by
  cases ss with
  | nil => exact ⟨_, rfl, by simp⟩
  | cons s ss =>
    obtain ⟨k, ks', hk, -, hvar, hcolon⟩ := s.exists_cons_kinds
    exact ⟨k, by rw [Stmt.kindsAll, hk]; rfl, hvar, hcolon⟩

theorem takes_function {f : Function} (hf : ∀ e ∈ Stmt.exprsAll f.body, e.Nested)
    (hc : c.kinds = f.kinds ++ rest) :
    Takes f.Formed c function rest fun a => a.mapMark erased = f.mapMark erased := by
  simp only [Function.kinds, inParens, List.cons_append, List.append_assoc, List.nil_append] at hc
  refine takes_peek hc fun token _ => takes_freshId fun id c' hc' => ?_
  rw [hc] at hc'
  refine takes_expect hc' fun c' hc => (takes_ident hc).bind fun name c' hc hname => ?_
  refine takes_expect hc fun c' hc => ?_
  refine (takes_listed (m := .parameter) (f := Parameter.mapMark erased) (A := fun _ => True)
    (fun q hq c ks hc _ => ?_) (fun q _ => ?_)
    (fun _ => trivial) (fun _ => trivial) hc).bind fun params c' hc hparams => ?_
  · exact (takes_parameter hc).of_formed fun h => h.params q hq
  · exact ⟨_, _, rfl, by simp⟩
  refine takes_expect hc fun c' hc => ?_
  obtain ⟨k, hk, hvar, hcolon⟩ := head?_body f.body rest
  refine ((takes_result hc ?_).of_formed Function.Formed.result).bind
    fun result c' hc hresult => ?_
  · cases hds : f.declarations with
    | nil =>
      rw [List.flatMap_nil, List.nil_append, hk]
      exact fun h => hcolon (Option.some.inj h)
    | cons d ds => simp [Declaration.kinds]
  refine ((takes_declarations hc ?_).of_formed fun h d hd => ⟨h.named d hd, h.sized d hd⟩).bind
    fun decls c' hc hdecls => ?_
  · rw [hk]
    exact fun h => hvar (Option.some.inj h)
  refine (takes_body (fun s _ => takes_statement s) hf rfl hc Function.Formed.filled).bind
    fun stmts c' hc hstmts => ?_
  refine takes_expect hc fun c' hc => takes_lastStop fun stop => takes_pure hc ?_
  simp only [Function.mapMark, Ident.mapMark, hname, hparams, hresult, hdecls, hstmts]
  rfl

end Parser

/-- Where the tokens are those of a well nested program, reading gives this program or nothing, and
not nothing if the program is formed. -/
theorem Program.ofTokens_of_kinds {q : Program} (hq : q.WellNested) {ts : List Token}
    (hts : q.kinds = ts.map Token.kind) :
    (∀ p, Program.ofTokens ts = .ok p → p.bare = q.bare) ∧
      (q.Formed → ∃ p, Program.ofTokens ts = .ok p) := by
  have hstart : (Cursor.start ts).kinds = q.functions.flatMap Function.kinds ++ [] := by
    rw [List.append_nil]
    exact hts.symm
  have htakes : Parser.Takes q.Formed (Cursor.start ts) Parser.program [] fun p =>
      p.bare = q.bare := by
    rw [Parser.program_eq]
    refine Parser.takes_freshId fun id c hc => ?_
    rw [hstart] at hc
    refine (Parser.takes_items (i := .function) (f := Function.mapMark erased) (fun _ _ _ => rfl)
      (fun f hf c ks hc => ?_) rfl hc).bind fun fs c hc hfs => ?_
    · have hnested : ∀ e ∈ Stmt.exprsAll f.body, e.Nested :=
        fun e he => hq e (List.mem_flatMap.2 ⟨f, hf, he⟩)
      exact (Parser.takes_function hnested hc).of_formed fun h => h.formed f hf
    refine Parser.Takes.bind (l := []) (P := fun _ => True) (Parser.takes_peek? ?_)
      fun _ c hc _ => ?_
    · rw [hc]
      exact Parser.takes_pure hc trivial
    · by_cases hempty : fs.isEmpty = true
      · rw [if_pos hempty]
        refine Parser.takes_fail fun h => h.functions ?_
        rw [List.isEmpty_iff.1 hempty, List.map_nil] at hfs
        exact List.map_eq_nil_iff.1 hfs.symm
      · rw [if_neg hempty]
        refine Parser.takes_pure hc ?_
        rw [Program.bare, Program.bare, Program.mapMark, Program.mapMark, hfs]
        rfl
  refine ⟨fun p hp => ?_, fun hformed => ?_⟩
  · have hrun : Parser.program.run (Cursor.start ts) =
        (.ok p, (Parser.program.run (Cursor.start ts)).2) := by
      rw [← hp]
      rfl
    exact (htakes.right p _ hrun).2
  · obtain ⟨p, c, hrun⟩ := htakes.given hformed
    exact ⟨p, by rw [Program.ofTokens, hrun]⟩

/-- A token list is read if and only if the grammar allows it, and then as the one well nested tree
that flattens to it. -/
theorem Program.ofTokens_recognizes (ts : List Token) :
    ((∃ p, Program.ofTokens ts = .ok p) ↔ Derives .program (ts.map Token.kind)) ∧
      ∀ p, Program.ofTokens ts = .ok p →
        p.kinds = ts.map Token.kind ∧ p.WellNested ∧
          ∀ q : Program, q.kinds = ts.map Token.kind → q.WellNested → q.bare = p.bare := by
  refine ⟨⟨fun h => ?_, fun h => ?_⟩, fun p hp => ?_⟩
  · obtain ⟨p, hp⟩ := h
    obtain ⟨hkinds, -, hformed⟩ := Program.kinds_of_ofTokens hp
    rw [← hkinds]
    exact Program.derives hformed
  · obtain ⟨q, hnested, hformed, hkinds⟩ := h.flattens
    exact (Program.ofTokens_of_kinds hnested hkinds).2 hformed
  · obtain ⟨hkinds, hnested, -⟩ := Program.kinds_of_ofTokens hp
    exact ⟨hkinds, hnested, fun q hq hnested =>
      ((Program.ofTokens_of_kinds hnested hq).1 p hp).symm⟩

def differences : Program :=
  let number (n : Int) : Expr := .literal .blank (.int n)
  ⟨0, [⟨.blank, ⟨.blank, "main"⟩, [], none, [], [.write .blank (.binary .blank .sub
    (.binary .blank .sub (number 1) (number 2)) (number 3))]⟩]⟩

def differences.tokens : List Token := differences.kinds.map fun k => ⟨k, 0, 0, k.spelling⟩

theorem differences_recognized :
    (∃ p, Program.ofTokens differences.tokens = .ok p) ∧
      ∀ p, Program.ofTokens differences.tokens = .ok p → p.bare = differences := by
  have hkinds : differences.kinds = differences.tokens.map Token.kind := rfl
  have hformed : differences.Formed := by
    constructor
    · simp [differences]
    · intro f hf
      cases List.mem_singleton.1 hf
      constructor <;> simp [Stmt.exprsAll, Stmt.exprs, Expr.parts, Expr.Filled]
  have hrecognized := Program.ofTokens_recognizes differences.tokens
  refine ⟨hrecognized.1.2 (hkinds ▸ Program.derives hformed), fun p hp => ?_⟩
  have hnested : differences.WellNested := by
    unfold Program.WellNested
    decide
  exact ((hrecognized.2 p hp).2.2 differences hkinds hnested).symm

end Asl
