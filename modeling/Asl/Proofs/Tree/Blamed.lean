import Asl.Proofs.Tree.Settled

/-!
# Which token is to blame

Every parser is settled by the tokens it passes and the next one, and where it fails, the tokens
before the one to blame are the front of a phrase. At each step of a parser the tokens so far and a
shortest ending give the phrase, so the grammar alone says that reading may have come this far.
-/
namespace Asl.Parser

open Attempt (fail)

variable {α β : Type} {c d : Cursor} {n : Nat}

/-! ## Names and types -/

theorem settles_name {L : List TokenKind → Prop} {x : String}
    (h : c.kinds.head? = some (.ident x)) :
    Settles 1 c ident L fun _ ks => ks = [.ident x] := by
  refine settles_peek? ?_
  rw [h]
  obtain ⟨t, ht, -⟩ := Option.map_eq_some_iff.1 (List.head?_map ▸ h)
  refine settles_peek_of_head ht (settles_advance_past h fun d _ => ?_)
  exact settles_mark fun mark d' _ => settles_pure rfl

theorem settled_ident : Settled (fun ks => ∃ x, ks = [.ident x]) c ident := by
  by_cases h : ∃ x, c.kinds.head? = some (.ident x)
  · obtain ⟨x, h⟩ := h
    exact (settles_name h).mono (Nat.zero_le 1) .refl fun _ ks h => ⟨x, h⟩
  · refine settles_peek? ?_
    split
    · rename_i x hx
      exact absurd ⟨x, hx⟩ h
    · exact settles_fail ⟨_, "x", rfl⟩

theorem settled_baseType :
    Settled (fun ks => ∃ b : BaseType, ks = [.keyword b.keyword]) c baseType := by
  refine settles_peek? ?_
  split
  · rename_i b h
    obtain ⟨k, hk, hb⟩ := Option.bind_eq_some_iff.1 h
    rw [BaseType.keyword_of_ofToken? hb] at hk
    exact settles_advance hk fun d _ => settles_pure ⟨b, rfl⟩
  · exact settles_fail ⟨_, .int, rfl⟩

/-- A size that is not positive is to blame although it has been passed. -/
theorem settled_arraySize :
    Settled (fun ks => ∃ n : Int, 1 ≤ n ∧ ks = [.int n]) c arraySize := by
  refine settles_peek? ?_
  split
  · rename_i n h
    by_cases hn : n ≤ 0
    · simp only [if_pos hn]
      exact settles_advance_fail h ⟨_, 1, by decide, rfl⟩
    · simp only [if_neg hn]
      exact settles_advance h fun d _ => settles_pure ⟨n, by omega, rfl⟩
  · exact settles_fail ⟨_, 1, by decide, rfl⟩

theorem settled_typeSpec : Settled (Derives .type) c typeSpec := by
  refine settles_peek? ?_
  split
  · rename_i h
    refine settles_advance h fun d _ => ?_
    refine settles_expect ⟨_, .array (n := 1) (b := .int) (by decide)⟩ fun d _ => ?_
    refine settled_arraySize.bind ?_ fun size ks d _ _ h => ?_
    · rintro _ ⟨n, hn, rfl⟩
      exact ⟨_, .array (b := .int) hn⟩
    obtain ⟨n, hn, rfl⟩ := h
    refine settles_expect ⟨_, .array (b := .int) hn⟩ fun d _ => ?_
    refine settles_expect ⟨_, .array (b := .int) hn⟩ fun d _ => ?_
    refine settled_baseType.bind ?_ fun b ks d _ _ h => ?_
    · rintro _ ⟨b, rfl⟩
      exact ⟨[], .array hn⟩
    obtain ⟨b, rfl⟩ := h
    exact settles_pure (.array hn)
  · refine settled_baseType.bind ?_ fun b ks d _ _ h => ?_
    · rintro _ ⟨b, rfl⟩
      exact ⟨[], .base⟩
    obtain ⟨b, rfl⟩ := h
    exact settles_pure .base

theorem settled_typeNote : Settled (Derives .type) c typeNote := by
  refine settles_peek ⟨_, .base (b := .int)⟩ fun token _ => ?_
  refine settled_typeSpec.bind .refl fun spec ks d _ _ h => ?_
  refine settles_mark fun mark d _ => settles_pure ?_
  rwa [List.append_nil]

/-! ## Expressions -/

theorem settled_index (hm : SettledWithin n (Derives .expr) expr)
    (hc : c.rest.length ≤ n + 1) :
    Settled (fun ks => ∃ ks', Derives .expr ks' ∧ ks = inBrackets ks') c (index expr) := by
  have hsome : Derives .expr [.int 0] := .literal (l := .int 0)
  refine settles_expect ⟨_, _, hsome, rfl⟩ fun d hd => ?_
  have hlength := Cursor.length_of_cons hd
  refine (hm d (by omega)).bind (fun ks h => ⟨_, ks, h, rfl⟩) fun i ks d _ _ h => ?_
  refine settles_expect ⟨_, ks, h, rfl⟩ fun d _ => ?_
  exact settles_pure ⟨ks, h, rfl⟩

theorem settles_arguments (hm : SettledWithin n (Derives .expr) expr)
    (hc : c.rest.length ≤ n + 1) :
    Settles 0 c (arguments expr) (fun ks => ∃ ks', Derives .exprList ks' ∧ ks = inParens ks')
      fun as ks => (as = [] ∧ ks = inParens []) ∨
        as ≠ [] ∧ ∃ ks', Derives .exprList ks' ∧ ks = inParens ks' := by
  have hsome : Derives .exprList [.int 0] := .oneExpr (.literal (l := .int 0))
  refine settles_expect ⟨_, _, hsome, rfl⟩ fun d hd => ?_
  have hlength := Cursor.length_of_cons hd
  rw [listed, bind_assoc]
  refine settles_peek? ?_
  split
  · rename_i hclose
    rw [pure_bind, expect, bind_assoc]
    refine settles_peek? ?_
    rw [if_pos hclose]
    exact settles_advance hclose fun d _ => settles_pure (.inl ⟨rfl, rfl⟩)
  · refine (settles_separated .argument (fun _ => .oneExpr) (fun _ _ => .moreExprs) hm
      (by omega)).bind (fun ks h => ⟨_, ks, h, rfl⟩) fun args ks d _ _ h => ?_
    obtain ⟨hne, hks⟩ := h
    refine settles_expect ⟨_, ks, hks, rfl⟩ fun d _ => ?_
    exact settles_pure (.inr ⟨hne, ks, hks, rfl⟩)

theorem expect_run_cons {k : TokenKind} {t : Token} {ts : List Token} (h : c.rest = t :: ts)
    (hk : t.kind = k) :
    (expect k).run c = (.ok (), { c with rest := ts, lastStop := t.stop }) := by
  have hhead : c.rest.head?.map Token.kind = some k := by
    rw [h, List.head?_cons, Option.map_some, hk]
  change (if c.rest.head?.map Token.kind = some k then advance
    else fail (.expectedToken k (c.rest.head?.map Token.kind)) : Parser Unit).run c = _
  rw [if_pos hhead]
  exact advance_run_cons h

theorem arguments_run_empty {t t' : Token} {ts : List Token} (h : c.rest = t :: t' :: ts)
    (ht : t.kind = .symbol .lparen) (ht' : t'.kind = .symbol .rparen) :
    (arguments expr).run c = (.ok [], { c with rest := ts, lastStop := t'.stop }) := by
  have hlisted : (listed expr).run { c with rest := t' :: ts, lastStop := t.stop } =
      (.ok [], { c with rest := t' :: ts, lastStop := t.stop }) := by
    change (if some t'.kind = some (.symbol .rparen) then (pure [] : Parser (List Expr))
      else separated expr).run _ = _
    rw [if_pos (congrArg some ht')]
    rfl
  rw [arguments, Attempt.run_bind, expect_run_cons h ht]
  simp only [Attempt.run_bind, hlisted]
  rw [expect_run_cons rfl ht']
  rfl

/-- An empty maximum is to be blamed on the parenthesis that closes it, which has been passed. -/
theorem settled_maximum (hm : SettledWithin n (Derives .expr) expr)
    (hc : c.rest.length ≤ n + 1) {e : ParseError} {g : List Expr → α} :
    Settled (fun ks => ∃ ks', Derives .exprList ks' ∧ ks = inParens ks') c (do
      let args ← arguments expr
      if args.isEmpty then fail e else return g args) := by
  by_cases hempty : ∃ ks, c.kinds = .symbol .lparen :: .symbol .rparen :: ks
  · obtain ⟨ks, hks⟩ := hempty
    obtain ⟨t, ts, hrest, ht, hts⟩ := List.map_eq_cons_iff.1 hks
    obtain ⟨t', ts, rfl, ht', -⟩ := List.map_eq_cons_iff.1 hts
    have hrun : ∀ {c : Cursor} {ts}, c.rest = t :: t' :: ts → (do
        let args ← arguments expr
        if args.isEmpty then fail e else return g args : Parser α).run c =
          (.error e, { c with rest := ts, lastStop := t'.stop }) := by
      intro c ts hc
      rw [Attempt.run_bind, arguments_run_empty hc ht ht']
      rfl
    have hsome : Derives .exprList [.int 0] := .oneExpr (.literal (l := .int 0))
    constructor
    · intro a d hrun'
      rw [hrun hrest] at hrun'
      cases hrun'
    · intro e' d hrun'
      rw [hrun hrest] at hrun'
      cases hrun'
      refine ⟨[t], t' :: ts, hrest, Nat.zero_le 1, ⟨[.int 0, .symbol .rparen], _, hsome, ?_⟩,
        Nat.le_refl _, fun rest hhead => ?_⟩
      · rw [List.map_singleton, ht]
        rfl
      · obtain ⟨ts', rfl⟩ := List.head?_eq_some_iff.1 hhead
        rw [hrun rfl]
  · refine (settles_arguments hm hc).bind .refl fun args ks d _ hkinds h => ?_
    rcases h with ⟨-, rfl⟩ | ⟨hne, hks⟩
    · exact absurd ⟨_, hkinds⟩ hempty
    · rw [if_neg (by rwa [List.isEmpty_iff])]
      refine settles_pure ?_
      rwa [List.append_nil]

theorem settled_unmarkedPrimary (hm : SettledWithin n (Derives .expr) expr)
    (hc : c.rest.length ≤ n + 1)
    {kind : TokenKind} (hkind : c.kinds.head? = some kind) :
    Settled (Derives .expr) c (unmarkedPrimary expr kind) := by
  have hsome : Derives .expr [.int 0] := .literal (l := .int 0)
  unfold unmarkedPrimary
  split
  · rename_i l hl
    rw [token_of_literalOf? hl] at hkind
    exact settles_advance hkind fun d _ => settles_pure .literal
  · refine settles_advance hkind fun d hd => ?_
    have hlength := Cursor.length_of_cons hd
    refine (settled_maximum hm (by omega)).mono (Nat.le_refl 0) (.of_imp ?_) fun _ => ?_
    · rintro _ ⟨ks, h, rfl⟩
      exact .max h
    · rintro _ ⟨ks, h, rfl⟩
      exact .max h
  · rename_i x _
    refine (settles_peekSecond? fun second => ?_).weaken
    split
    · refine (settles_name hkind).bind .refl fun callee ks d _ hd h => ?_
      subst h
      have hlength := Cursor.length_of_kinds hd
      rw [List.length_singleton] at hlength
      refine (settles_arguments hm (by omega)).bind (.of_imp ?_) fun args ks d _ _ h => ?_
      · rintro _ ⟨ks, h, rfl⟩
        exact .value (.call (.arguments h))
      · refine settles_pure ?_
        rw [List.append_nil]
        rcases h with ⟨-, rfl⟩ | ⟨-, ks, h, rfl⟩
        · exact .value (.call .noArguments)
        · exact .value (.call (.arguments h))
    · refine (settles_name hkind).bind .refl fun base ks d _ hd h => ?_
      subst h
      have hlength := Cursor.length_of_kinds hd
      rw [List.length_singleton] at hlength
      refine (settled_index hm (by omega)).bind (.of_imp ?_) fun i ks d _ _ h => ?_
      · rintro _ ⟨ks, h, rfl⟩
        exact .element h
      · obtain ⟨ks, h, rfl⟩ := h
        refine settles_pure ?_
        rw [List.append_nil]
        exact .element h
    · refine (settles_name hkind).bind .refl fun name ks d _ _ h => ?_
      subst h
      exact settles_pure .name
  · refine settles_advance hkind fun d hd => ?_
    have hlength := Cursor.length_of_cons hd
    refine (hm d (by omega)).bind (fun ks h => ⟨_, .paren h⟩) fun inner ks d _ _ h => ?_
    refine settles_expect ⟨[], .paren h⟩ fun d _ => ?_
    exact settles_pure (.paren h)
  · exact settles_fail ⟨_, hsome⟩

theorem settled_primary (hm : SettledWithin n (Derives .expr) expr)
    (hc : c.rest.length ≤ n + 1) :
    Settled (Derives .expr) c (primary expr) := by
  refine settles_peek ⟨_, .literal (l := .int 0)⟩ fun token ht => ?_
  have hkind : c.kinds.head? = some token.kind := by
    rw [Cursor.kinds, List.head?_map, ht, Option.map_some]
  refine (settled_unmarkedPrimary hm hc hkind).bind .refl fun node ks d _ _ h => ?_
  refine settles_mark fun mark d _ => settles_pure ?_
  rwa [List.append_nil]

/-- A chain goes on only behind an operator, and any two expressions may stand around that. -/
theorem settled_chain (l : Level) (hm : SettledWithin n (Derives .expr) l.operand)
    (hc : c.rest.length ≤ n) : Settled (Derives .expr) c (chain l.number l.operand) := by
  refine (hm c hc).bind .refl fun first ks d _ hd h => ?_
  have hlength := Cursor.length_of_kinds hd
  refine settles_loop (P := fun (_ : Expr) ks => Derives .expr ks) (n := n) l.loops l.proceeds
    (fun d op lhs ks hd hop h => ?_) (by omega) h
  obtain ⟨k, hk, hlevel⟩ := Option.bind_eq_some_iff.1 hop
  obtain ⟨-, rfl⟩ := operator?_eq_some.1 hlevel
  refine settles_advance hk fun d' hd' => ?_
  have hlength := Cursor.length_of_cons hd'
  refine (hm d' (by omega)).bind (.of_imp fun ks' h' => .binary h h')
    fun rhs ks' d _ _ h' => ?_
  refine settles_mark fun mark d _ => settles_pure ?_
  rw [List.append_nil]
  exact .binary h h'

theorem settled_levels (hm : SettledWithin n (Derives .expr) tight) :
    SettledWithin n (Derives .expr) expr := by
  rw [expr_eq]
  have hproduct : SettledWithin n _ (Level.operand .sum) := fun _ => settled_chain .product hm
  have hsum : SettledWithin n _ (Level.operand .relation) := fun _ => settled_chain .sum hproduct
  have hrelation : SettledWithin n _ (Level.operand .and) := fun _ => settled_chain .relation hsum
  have hand : SettledWithin n _ (Level.operand .or) := fun _ => settled_chain .and hrelation
  exact fun _ => settled_chain .or hand

theorem settled_tight (hc : c.rest.length ≤ n) : Settled (Derives .expr) c tight := by
  have hsome : Derives .expr [.int 0] := .literal (l := .int 0)
  induction n generalizing c with
  | zero =>
    have hnil : c.rest = [] := List.eq_nil_of_length_eq_zero (Nat.le_zero.1 hc)
    rw [tight_eq]
    refine settles_peek ⟨_, hsome⟩ fun token ht => ?_
    rw [hnil] at ht
    cases ht
  | succ n ih =>
    rw [tight_eq]
    refine settles_peek ⟨_, hsome⟩ fun token ht => ?_
    have hkind : c.kinds.head? = some token.kind := by
      rw [Cursor.kinds, List.head?_map, ht, Option.map_some]
    split
    · rename_i op hop
      rw [UnaryOp.token_of_ofToken? hop] at hkind
      refine settles_advance hkind fun d hd => ?_
      have hlength := Cursor.length_of_cons hd
      refine (ih (by omega)).bind (.of_imp fun ks h => .unary h) fun inner ks d _ _ h => ?_
      refine settles_mark fun mark d _ => settles_pure ?_
      rw [List.append_nil]
      exact .unary h
    · exact settled_primary (settled_levels fun _ hd => ih hd) hc

theorem settled_expr : Settled (Derives .expr) c expr :=
  settled_levels (fun _ hd => settled_tight hd) c (Nat.le_refl _)

/-! ## Statements -/

theorem settles_target_name {x : String} {start : Nat} {name : Ident} :
    Settles 0 c (do
      if (← peek?) = some (.symbol .lbracket) then do
        let i ← index expr
        return Target.element (← mark start) name i
      else return Target.name (← mark start) name)
      (fun ks => Derives .target (.ident x :: ks))
      fun _ ks => Derives .target (.ident x :: ks) := by
  refine settles_peek? ?_
  split
  · refine (settled_index (fun d _ => settled_expr) (Nat.le_succ _)).bind (.of_imp ?_)
      fun i ks d _ _ h => ?_
    · rintro _ ⟨ks, h, rfl⟩
      exact .place h
    · obtain ⟨ks, h, rfl⟩ := h
      refine settles_mark fun mark d _ => settles_pure ?_
      rw [List.append_nil]
      exact .place h
  · exact settles_mark fun mark d _ => settles_pure .variable

theorem settles_place {x : String} (h : c.kinds.head? = some (.ident x)) :
    Settles 1 c target (Derives .target) fun _ ks => Derives .target ks := by
  obtain ⟨t, ht, -⟩ := Option.map_eq_some_iff.1 (List.head?_map ▸ h)
  refine settles_peek_of_head ht ((settles_name h).bind .refl fun name ks d _ _ h => ?_)
  subst h
  exact settles_target_name

theorem settled_target : Settled (Derives .target) c target := by
  refine settles_peek ⟨_, .variable (x := "x")⟩ fun token _ => ?_
  refine settled_ident.bind (.of_imp ?_) fun name ks d _ _ h => ?_
  · rintro _ ⟨x, rfl⟩
    exact .variable
  · obtain ⟨x, rfl⟩ := h
    exact settles_target_name

theorem settled_callArguments :
    Settled (fun ks => ∃ ks', Derives .arguments ks' ∧ ks = inParens ks') c (arguments expr) := by
  refine (settles_arguments (fun d _ => settled_expr) (Nat.le_succ _)).mono
    (Nat.le_refl 0) (.of_imp ?_) fun args ks h => ?_
  · rintro _ ⟨ks, h, rfl⟩
    exact ⟨ks, .arguments h, rfl⟩
  · rcases h with ⟨-, rfl⟩ | ⟨-, ks, h, rfl⟩
    · exact ⟨[], .noArguments, rfl⟩
    · exact ⟨ks, .arguments h, rfl⟩

theorem settled_statements (hm : SettledWithin n (Derives .statement) oneStatement)
    (hc : c.rest.length ≤ n) : Settled (Derives .statements) c body := by
  rw [body_eq]
  refine (settles_collect .statement (fun _ _ => .moreStatements) ⟨_, .noStatements⟩
    (fun d _ items hd _ => settles_step rfl (hm d hd) items) hc).mono (Nat.le_refl 0) .refl
    fun ss ks h => ?_
  have hall := h [] .noStatements
  rwa [List.append_nil] at hall

/-- A statement that may still lack a semicolon. -/
def SettledUnmarked (c : Cursor) (m : Parser (Bool × (Mark → Stmt))) : Prop :=
  Settles 0 c m (Derives .statement) fun r ks =>
    Derives .statement (ks ++ if r.1 then [.symbol .semicolon] else [])

theorem settled_if (hm : SettledWithin n (Derives .statements) body)
    (hc : c.rest.length ≤ n + 1) (h : c.kinds.head? = some (.keyword .if)) :
    SettledUnmarked c (unmarkedStatement body (.keyword .if)) := by
  refine settles_advance h fun d hd => ?_
  have hlength := Cursor.length_of_cons hd
  refine settled_expr.bind (fun ks h => ⟨_, .ifThen h .noStatements⟩)
    fun condition ks d _ hd hcondition => ?_
  have hlength := Cursor.length_of_kinds hd
  refine settles_expect ⟨_, .ifThen hcondition .noStatements⟩ fun d hd => ?_
  have hlength := Cursor.length_of_cons hd
  refine (hm d (by omega)).bind (fun ks h => ⟨_, .ifThen hcondition h⟩)
    fun yes ks d _ hd hyes => ?_
  have hlength := Cursor.length_of_kinds hd
  refine settles_peek? ?_
  split
  · rename_i helse
    refine settles_advance helse fun d hd => ?_
    have hlength := Cursor.length_of_cons hd
    refine (hm d (by omega)).bind (fun ks h => ⟨_, .ifElse hcondition hyes h⟩)
      fun no ks d _ _ hno => ?_
    refine settles_expect ⟨[], .ifElse hcondition hyes hno⟩ fun d _ => settles_pure ?_
    have hall := Derives.ifElse hcondition hyes hno
    simpa using hall
  · refine settles_expect ⟨[], .ifThen hcondition hyes⟩ fun d _ => settles_pure ?_
    have hall := Derives.ifThen hcondition hyes
    simpa using hall

theorem settled_while (hm : SettledWithin n (Derives .statements) body)
    (hc : c.rest.length ≤ n + 1) (h : c.kinds.head? = some (.keyword .while)) :
    SettledUnmarked c (unmarkedStatement body (.keyword .while)) := by
  refine settles_advance h fun d hd => ?_
  have hlength := Cursor.length_of_cons hd
  refine settled_expr.bind (fun ks h => ⟨_, .while h .noStatements⟩)
    fun condition ks d _ hd hcondition => ?_
  have hlength := Cursor.length_of_kinds hd
  refine settles_expect ⟨_, .while hcondition .noStatements⟩ fun d hd => ?_
  have hlength := Cursor.length_of_cons hd
  refine (hm d (by omega)).bind (fun ks h => ⟨_, .while hcondition h⟩) fun body ks d _ _ hbody => ?_
  refine settles_expect ⟨[], .while hcondition hbody⟩ fun d _ => settles_pure ?_
  have hall := Derives.while hcondition hbody
  simpa using hall

theorem settled_for (hm : SettledWithin n (Derives .statements) body)
    (hc : c.rest.length ≤ n + 1) (h : c.kinds.head? = some (.keyword .for)) :
    SettledUnmarked c (unmarkedStatement body (.keyword .for)) := by
  refine settles_advance h fun d hd => ?_
  have hlength := Cursor.length_of_cons hd
  refine settled_ident.bind ?_ fun control ks d _ hd h => ?_
  · rintro _ ⟨x, rfl⟩
    exact ⟨_, .for .noArguments .noStatements⟩
  obtain ⟨x, rfl⟩ := h
  have hlength := Cursor.length_of_kinds hd
  refine settles_expect ⟨_, .for .noArguments .noStatements⟩ fun d hd => ?_
  have hlength := Cursor.length_of_cons hd
  refine settles_expect ⟨_, .for .noArguments .noStatements⟩ fun d hd => ?_
  have hlength := Cursor.length_of_cons hd
  refine settled_callArguments.bind ?_ fun range ks d _ hd h => ?_
  · rintro _ ⟨ks, h, rfl⟩
    exact ⟨_, .for h .noStatements⟩
  obtain ⟨ks, hrange, rfl⟩ := h
  have hlength := Cursor.length_of_kinds hd
  refine settles_expect ⟨_, .for hrange .noStatements⟩ fun d hd => ?_
  have hlength := Cursor.length_of_cons hd
  refine (hm d (by omega)).bind (fun ks h => ⟨_, .for hrange h⟩) fun body ks d _ _ hbody => ?_
  refine settles_expect ⟨[], .for hrange hbody⟩ fun d _ => settles_pure ?_
  have hall := Derives.for (x := x) hrange hbody
  simpa using hall

theorem settled_write (h : c.kinds.head? = some (.keyword .write)) :
    SettledUnmarked c (unmarkedStatement body (.keyword .write)) := by
  refine settles_advance h fun d _ => settles_peek? ?_
  split
  · rename_i htext
    exact settles_advance htext fun d _ => settles_pure .writeText
  · refine settled_expr.bind (fun ks h => ⟨_, .write h⟩) fun value ks d _ _ hvalue => ?_
    refine settles_pure ?_
    rw [List.append_nil]
    exact .write hvalue

theorem settled_return (h : c.kinds.head? = some (.keyword .return)) :
    SettledUnmarked c (unmarkedStatement body (.keyword .return)) := by
  refine settles_advance h fun d _ => settles_peek? ?_
  split
  · exact settles_pure .leave
  · refine settled_expr.bind (fun ks h => ⟨_, .ret h⟩) fun value ks d _ _ hvalue => ?_
    refine settles_pure ?_
    rw [List.append_nil]
    exact .ret hvalue

/-- Behind a name the second token decides, and it is to blame if it begins neither form. -/
theorem settled_named {x : String} (h : c.kinds.head? = some (.ident x)) :
    SettledUnmarked c (unmarkedStatement body (.ident x)) := by
  have hassign : Settles 1 c (do
      let place ← target
      expect (.symbol .assign)
      let value ← expr
      return (true, (Stmt.assign · place value))) (Derives .statement) fun r ks =>
        Derives .statement (ks ++ if r.1 then [.symbol .semicolon] else []) := by
    have hsome : Derives .expr [.int 0] := .literal (l := .int 0)
    refine (settles_place h).bind (fun ks h => ⟨_, .assign h hsome⟩) fun place ks d _ _ hplace => ?_
    refine settles_expect ⟨_, .assign hplace hsome⟩ fun d _ => ?_
    refine settled_expr.bind (fun ks h => ⟨_, .assign hplace h⟩) fun value ks d _ _ hvalue => ?_
    refine settles_pure ?_
    have hall := Derives.assign hplace hvalue
    simpa using hall
  refine (settles_peekSecond? fun second => ?_).weaken
  split
  · refine (settles_name h).bind .refl fun callee ks d _ _ h => ?_
    subst h
    refine settled_callArguments.bind ?_ fun args ks d _ _ h => ?_
    · rintro _ ⟨ks, h, rfl⟩
      exact ⟨_, .procedure (.call h)⟩
    · obtain ⟨ks, hargs, rfl⟩ := h
      refine settles_pure ?_
      rw [List.append_nil]
      exact .procedure (.call hargs)
  · exact hassign
  · exact hassign
  · exact settles_fail_second h ⟨_, .procedure (.call .noArguments)⟩

theorem settled_unmarkedStatement (hm : SettledWithin n (Derives .statements) body)
    (hc : c.rest.length ≤ n + 1) {kind : TokenKind} (h : c.kinds.head? = some kind) :
    SettledUnmarked c (unmarkedStatement body kind) := by
  unfold unmarkedStatement
  split
  · exact settled_if hm hc h
  · exact settled_while hm hc h
  · exact settled_for hm hc h
  · refine settles_advance h fun d _ => ?_
    refine settled_target.bind (fun ks h => ⟨_, .read h⟩) fun place ks d _ _ hplace => ?_
    refine settles_pure ?_
    rw [List.append_nil]
    exact .read hplace
  · exact settled_write h
  · exact settled_return h
  · exact settled_named h
  · exact settles_fail ⟨_, .leave⟩

theorem settled_oneStatement (hc : c.rest.length ≤ n) :
    Settled (Derives .statement) c oneStatement := by
  induction n generalizing c with
  | zero =>
    have hnil : c.rest = [] := List.eq_nil_of_length_eq_zero (Nat.le_zero.1 hc)
    rw [oneStatement_eq]
    refine settles_peek ⟨_, .leave⟩ fun token ht => ?_
    rw [hnil] at ht
    cases ht
  | succ n ih =>
    rw [oneStatement_eq]
    refine settles_peek ⟨_, .leave⟩ fun token ht => ?_
    have hkind : c.kinds.head? = some token.kind := by
      rw [Cursor.kinds, List.head?_map, ht, Option.map_some]
    have hbody : SettledWithin n (Derives .statements) body := fun _ =>
      settled_statements fun _ hd => ih hd
    refine settles_peek_of_head ht ?_
    refine (settled_unmarkedStatement hbody hc hkind).bind .refl fun r ks d _ _ h => ?_
    rcases r with ⟨simple, node⟩
    cases simple with
    | true =>
      exact settles_expect ⟨[], h⟩ fun d _ => settles_mark fun mark d _ => settles_pure h
    | false => exact settles_mark fun mark d _ => settles_pure h

theorem settled_body : Settled (Derives .statements) c body :=
  settled_statements (fun _ hd => settled_oneStatement hd) (Nat.le_refl _)

/-! ## Functions and programs -/

def IsParameter (ks : List TokenKind) : Prop :=
  ∃ x ks', Derives .type ks' ∧ ks = .ident x :: .symbol .colon :: ks'

theorem settled_parameter : Settled IsParameter c parameter := by
  have hsome : Derives .type [.keyword .int] := .base (b := .int)
  refine settled_ident.bind ?_ fun name ks d _ _ h => ?_
  · rintro _ ⟨x, rfl⟩
    exact ⟨_, x, _, hsome, rfl⟩
  obtain ⟨x, rfl⟩ := h
  refine settles_expect ⟨_, x, _, hsome, rfl⟩ fun d _ => ?_
  refine settled_typeNote.bind (.of_imp fun ks h => ⟨x, ks, h, rfl⟩) fun t ks d _ _ h => ?_
  refine settles_pure ⟨x, ks, h, ?_⟩
  rw [List.append_nil]
  rfl

theorem settled_result : Settled (Derives .result) c result := by
  refine settles_peek? ?_
  split
  · rename_i h
    refine settles_advance h fun d _ => ?_
    refine settles_peek ⟨_, .result (b := .int)⟩ fun token _ => ?_
    refine settled_baseType.bind ?_ fun b ks d _ _ h => ?_
    · rintro _ ⟨b, rfl⟩
      exact ⟨[], .result⟩
    · obtain ⟨b, rfl⟩ := h
      exact settles_mark fun mark d _ => settles_pure .result
  · exact settles_pure .noResult

def IsDeclaration (ks : List TokenKind) : Prop :=
  ∃ names type, Derives .names names ∧ Derives .type type ∧
    ks = .keyword .var :: (names ++ .symbol .colon :: type)

theorem settled_declared : Settled (fun ks => IsDeclaration (.keyword .var :: ks)) c declared := by
  have hsome : Derives .type [.keyword .int] := .base (b := .int)
  refine (settles_separated .name (S := Derives .names) ?_ ?_ (fun d _ => settled_ident)
    (Nat.le_refl _)).bind (fun ks h => ⟨_, ks, _, h, hsome, rfl⟩) fun names ks d _ _ h => ?_
  · rintro _ ⟨x, rfl⟩
    exact .oneName
  · rintro _ ks ⟨x, rfl⟩ h
    exact .moreNames h
  obtain ⟨-, hnames⟩ := h
  refine settles_expect ⟨_, ks, _, hnames, hsome, rfl⟩ fun d _ => ?_
  refine settled_typeNote.bind (.of_imp fun ks' h => ⟨ks, ks', hnames, h, rfl⟩)
    fun t ks' d _ _ h => settles_pure ⟨ks, ks', hnames, h, ?_⟩
  rw [List.append_nil]

theorem settled_declarations : Settled (Derives .declarations) c declarations := by
  rw [declarations_eq]
  refine (settles_collect .declaration (I := IsDeclaration) (S := Derives .declarations) ?_
    ⟨_, .noDeclarations⟩ (fun d b items _ hb => ?_) (Nat.le_refl _)).mono (Nat.le_refl 0) .refl
    fun ds ks h => ?_
  · rintro _ ks ⟨names, type, hnames, htype, rfl⟩ h
    exact .moreDeclarations hnames htype h
  · refine settles_advance (head?_of_test hb) fun d' _ => ?_
    refine settled_declared.bind .refl fun next ks d'' _ _ h => settles_pure ?_
    rwa [List.append_nil]
  · have hall := h [] .noDeclarations
    rwa [List.append_nil] at hall

theorem derives_function (x : String) {ps r ds ss : List TokenKind} (hps : Derives .params ps)
    (hr : Derives .result r) (hds : Derives .declarations ds) (hss : Derives .statements ss) :
    Derives .function (.keyword .func :: .ident x :: .symbol .lparen :: (ps ++
      .symbol .rparen :: (r ++ (ds ++ (ss ++ [.keyword .endfunc]))))) := by
  have hall := Derives.function (x := x) hps hr hds hss
  simpa [inParens] using hall

theorem settled_function : Settled (Derives .function) c function := by
  have hsome := derives_function "f" .noParams .noResult .noDeclarations .noStatements
  refine settles_peek ⟨_, hsome⟩ fun token _ => settles_freshId fun id d _ => ?_
  refine settles_expect ⟨_, hsome⟩ fun d _ => ?_
  refine settled_ident.bind ?_ fun name ks d _ _ h => ?_
  · rintro _ ⟨x, rfl⟩
    exact ⟨_, derives_function x .noParams .noResult .noDeclarations .noStatements⟩
  obtain ⟨x, rfl⟩ := h
  refine settles_expect
    ⟨_, derives_function x .noParams .noResult .noDeclarations .noStatements⟩ fun d _ => ?_
  have hlisted : Settles 0 d (listed parameter) (Derives .paramList)
      fun _ ks => ks = [] ∨ Derives .paramList ks := by
    refine settles_listed .parameter (I := IsParameter) ?_ ?_ (fun d _ => settled_parameter)
      (Nat.le_refl _)
    · rintro _ ⟨x, ks, h, rfl⟩
      exact .oneParam h
    · rintro _ ks ⟨x, ks', h', rfl⟩ h
      exact .moreParams h' h
  refine hlisted.bind
    (fun ks h => ⟨_, derives_function x (.params h) .noResult .noDeclarations .noStatements⟩)
    fun params ks d _ _ h => ?_
  have hparams : Derives .params ks := by
    rcases h with rfl | h
    · exact .noParams
    · exact .params h
  refine settles_expect
    ⟨_, derives_function x hparams .noResult .noDeclarations .noStatements⟩ fun d _ => ?_
  refine settled_result.bind
    (fun ks h => ⟨_, derives_function x hparams h .noDeclarations .noStatements⟩)
    fun result ks d _ _ hresult => ?_
  refine settled_declarations.bind
    (fun ks h => ⟨_, derives_function x hparams hresult h .noStatements⟩)
    fun decls ks d _ _ hdecls => ?_
  refine settled_body.bind (fun ks h => ⟨_, derives_function x hparams hresult hdecls h⟩)
    fun stmts ks d _ _ hstmts => ?_
  refine settles_expect ⟨[], derives_function x hparams hresult hdecls hstmts⟩ fun d _ => ?_
  exact settles_lastStop fun stop =>
    settles_pure (derives_function x hparams hresult hdecls hstmts)

/-- Functions may follow each other without an end, so nothing is to blame behind them. -/
theorem settles_program : Settles 0 c program (Derives .program) fun _ _ => True := by
  have hsome := derives_function "f" .noParams .noResult .noDeclarations .noStatements
  rw [program_eq]
  refine settles_freshId fun id d _ => ?_
  refine (settles_collect .function (fun _ _ => .moreFunctions) ⟨_, .oneFunction hsome⟩
    (fun _ _ items _ _ => settles_step rfl settled_function items)
    (Nat.le_refl _)).bind .refl fun fs ks d _ _ h => ?_
  have hmore := h _ (.oneFunction hsome)
  rw [atEnd, bind_assoc]
  refine settles_peek? ?_
  split
  · rw [pure_bind]
    split
    · exact settles_fail ⟨_, hmore⟩
    · exact settles_pure trivial
  · exact settles_fail ⟨_, hmore⟩

end Asl.Parser
