import Asl.Proofs.Tree.Unrolled

/-!
# Reading without a bound

The bounds of loops and nestings are never felt. A loop that passes a token in every round is the
loop that looks for one more round after each; and an operand or a statement, read under any bound
that is at least as long as the tokens that are left, is what the unrolled grammar reads. So each
parser of the language is its construct's parser in the grammar that refers to itself without a
bound.
-/
namespace Asl.Parser

open Attempt (fail)
open Outline (Built)
open Readers (limit limit_once limit_meets)

variable {α β : Type} {n : Nat}

/-! ## Loops -/

theorem boundedWhile_run_cons {test : TokenKind → Option β} {step : β → α → Parser α} (t : Token)
    (bound : List Token) (a : α) (c : Cursor) :
    (boundedWhile test step (t :: bound) a).run c =
      match (c.rest.head?.map Token.kind).bind test with
      | none => (.ok a, c)
      | some b => (step b a >>= boundedWhile test step bound).run c := by
  change (match (c.rest.head?.map Token.kind).bind test with
    | none => (pure a : Parser α)
    | some b => step b a >>= boundedWhile test step bound).run c = _
  split <;> rfl

/-- Every round of a loop that succeeds passes a token. -/
def Proceeds (test : TokenKind → Option β) (step : β → α → Parser α) : Prop :=
  ∀ c b a a' c', (c.rest.head?.map Token.kind).bind test = some b →
    (step b a).run c = (.ok a', c') → c'.rest.length < c.rest.length

/-- One more round as long as the next token passes a test. -/
def Loops (test : TokenKind → Option β) (step : β → α → Parser α) (loop : α → Parser α) : Prop :=
  ∀ a, loop a = do
    match (← peek?).bind test with
    | none => pure a
    | some b => do
        let a' ← step b a
        loop a'

section

variable {test : TokenKind → Option β} {step step' : β → α → Parser α} {loop : α → Parser α}

theorem Loops.run (hloop : Loops test step loop) (a : α) (c : Cursor) :
    (loop a).run c = match (c.rest.head?.map Token.kind).bind test with
      | none => (.ok a, c)
      | some b => (step b a >>= loop).run c := by
  rw [hloop]
  change (match (c.rest.head?.map Token.kind).bind test with
    | none => (pure a : Parser α)
    | some b => step b a >>= loop).run c = _
  split <;> rfl

/-- Where at most so many tokens are left, a bounded loop over steps that do the same is the loop
without a bound. -/
theorem Loops.boundedWhile_run (hloop : Loops test step loop) (hproceeds : Proceeds test step)
    (hsame : ∀ c b a, (c.rest.head?.map Token.kind).bind test = some b → c.rest.length ≤ n →
      (step' b a).run c = (step b a).run c)
    {bound : List Token} {c : Cursor} (a : α) (hc : c.rest.length ≤ n)
    (hbound : c.rest.length ≤ bound.length) :
    (boundedWhile test step' bound a).run c = (loop a).run c := by
  induction bound generalizing a c with
  | nil =>
    have hnil : c.rest = [] := List.eq_nil_of_length_eq_zero (Nat.le_zero.1 hbound)
    rw [hloop.run, hnil]
    rfl
  | cons t bound ih =>
    rw [boundedWhile_run_cons, hloop.run]
    split
    · rfl
    · rename_i b hb
      rw [Attempt.run_bind, Attempt.run_bind, hsame c b a hb hc]
      rcases hrun : (step b a).run c with ⟨e | a', c'⟩
      · rfl
      · have hlt := hproceeds c b a a' c' hb hrun
        rw [List.length_cons] at hbound
        exact ih a' (by omega) (by omega)

theorem Loops.whileNext_run (hloop : Loops test step loop) (hproceeds : Proceeds test step)
    (hsame : ∀ c b a, (c.rest.head?.map Token.kind).bind test = some b → c.rest.length ≤ n →
      (step' b a).run c = (step b a).run c)
    {c : Cursor} (a : α) (hc : c.rest.length ≤ n) :
    (whileNext test step' a).run c = (loop a).run c :=
  hloop.boundedWhile_run hproceeds hsame a hc (Nat.le_refl _)

theorem Loops.whileNext_eq (hloop : Loops test step loop) (hproceeds : Proceeds test step) :
    whileNext test step = loop :=
  funext fun a => Attempt.ext fun c =>
    hloop.whileNext_run hproceeds (fun _ _ _ _ _ => rfl) a (Nat.le_refl c.rest.length)

end

theorem boundedWhile_some (step : α → Parser α) (bound : List Token) (a : α) :
    boundedWhile some (fun _ => step) bound a =
      boundedWhile (fun _ => some ()) (fun _ => step) bound a := by
  induction bound generalizing a with
  | nil => rfl
  | cons t bound ih =>
    refine congrArg (peek? >>= ·) (funext fun found => ?_)
    cases found with
    | none => rfl
    | some kind => exact congrArg (step a >>= ·) (funext ih)

theorem functions_eq : whileNext some (fun _ => (Item.function).step) [] =
    whileNext (Item.function).follows (fun _ => (Item.function).step) [] :=
  Attempt.ext fun c => congrFun (boundedWhile_some (Item.function).step c.rest []) c

/-! ## Lengths -/

theorem Meets.length_le {c : Cursor} {m m' : Parser α} {P : Description α} (h : Meets c m m' P) :
    (m'.run c).2.rest.length ≤ c.rest.length := by
  obtain ⟨ts, ids, hpass, -⟩ := h.reads
  have hlength := hpass.length
  omega

theorem Meets.length_lt {c c' : Cursor} {r : Construct α} {m m' : Parser α} {a : α}
    (h : Meets c m m' (r.description c)) (hmoves : r.moves = true)
    (hrun : m'.run c = (.ok a, c')) : c'.rest.length < c.rest.length := by
  obtain ⟨ts, ids, hpass, hvalue⟩ := h.reads
  rw [hrun] at hpass hvalue
  have hpos := List.length_pos_iff.2 (Construct.moves_of_description (hvalue a rfl) hmoves)
  rw [hpass.length]
  exact Nat.lt_add_of_pos_left hpos

theorem length_lt_of_advance {c c' : Cursor} (hrun : advance.run c = (.ok (), c')) :
    c'.rest.length < c.rest.length := by
  cases hc : c.rest with
  | nil =>
    rw [advance_run_nil hc] at hrun
    cases hrun
  | cons t ts =>
    rw [advance_run_cons hc] at hrun
    cases hrun
    exact Nat.lt_succ_self _

/-! ## Readers below a bound -/

namespace Readers

def round (k : Readers) (i : Item α) (items : List α) : Parser (List α) := do
  if i.isLed then k.advance
  let next ← k.parse i.construct
  return items ++ [next]

def join (k : Readers) (l : Level) (op : BinaryOp) (lhs : Expr) : Parser Expr := do
  k.advance
  let rhs ← k.parse l.tighter
  return .binary (← mark lhs.mark.start) op lhs rhs

theorem loops_rest (i : Item α) :
    Loops i.follows (fun _ => limit.round i) fun items => limit.parse (.rest i items) := by
  refine fun items => (limit_once (.rest i items)).symm.trans ?_
  refine congrArg (peek? >>= ·) (funext fun found => ?_)
  cases found.bind i.follows with
  | none => rfl
  | some u =>
    simp only [round]
    cases i.isLed <;> simp [bind_assoc]

theorem loops_chain (l : Level) :
    Loops (operator? l.number) (limit.join l) fun lhs => limit.parse (.chain l lhs) := by
  refine fun lhs => (limit_once (.chain l lhs)).symm.trans ?_
  refine congrArg (peek? >>= ·) (funext fun found => ?_)
  cases found.bind (operator? l.number) with
  | none => rfl
  | some op => simp only [join, bind_assoc, pure_bind]

theorem proceeds_round (i : Item α) : Proceeds i.follows fun _ => limit.round i := by
  intro c u items items' c' _ hrun
  have hitem {c : Cursor} (hrun : (do
      let next ← limit.parse i.construct
      return items ++ [next]).run c = (.ok items', c')) : c'.rest.length < c.rest.length := by
    obtain ⟨next, c₁, hnext, hpure⟩ := Attempt.run_bind_eq_ok.1 hrun
    cases hpure
    exact (limit_meets i.construct c).length_lt i.moves_construct hnext
  unfold round at hrun
  cases hled : i.isLed with
  | false =>
    rw [hled] at hrun
    exact hitem hrun
  | true =>
    rw [hled] at hrun
    obtain ⟨_, c₁, hadvance, hrest⟩ := Attempt.run_bind_eq_ok.1 hrun
    exact Nat.lt_trans (hitem hrest) (length_lt_of_advance hadvance)

theorem proceeds_join (l : Level) : Proceeds (operator? l.number) (limit.join l) := by
  intro c op lhs e c' _ hrun
  obtain ⟨_, c₁, hadvance, hrest⟩ := Attempt.run_bind_eq_ok.1 hrun
  obtain ⟨rhs, c₂, hrhs, hmark⟩ := Attempt.run_bind_eq_ok.1 hrest
  cases hmark
  have hlt := (limit_meets l.tighter c₁).length_lt l.moves_tighter hrhs
  exact Nat.lt_trans hlt (length_lt_of_advance hadvance)

theorem rest_eq_whileNext (i : Item α) (items : List α) :
    limit.parse (.rest i items) = whileNext i.follows (fun _ => limit.round i) items :=
  congrFun ((loops_rest i).whileNext_eq (proceeds_round i)).symm items

theorem chain_eq_whileNext (l : Level) (lhs : Expr) :
    limit.parse (.chain l lhs) = whileNext (operator? l.number) (limit.join l) lhs :=
  congrFun ((loops_chain l).whileNext_eq (proceeds_join l)).symm lhs

/-! ## Names and types -/

theorem limit_token (kind : TokenKind) : limit.parse (.token kind) = expect kind :=
  (limit_once (.token kind)).symm

theorem limit_name : limit.parse .name = ident := (limit_once .name).symm

theorem limit_baseType : limit.parse .baseType = Parser.baseType := (limit_once .baseType).symm

theorem limit_arraySize : limit.parse .arraySize = Parser.arraySize := (limit_once .arraySize).symm

theorem limit_typeSpec : limit.parse .typeSpec = Parser.typeSpec := by
  rw [← limit_once, once, limit_token, limit_token, limit_token, limit_arraySize, limit_baseType]
  rfl

theorem limit_typeNote : limit.parse .typeNote = Parser.typeNote := by
  rw [← limit_once, once, limit_typeSpec]
  rfl

theorem limit_separated (m : Member α) :
    limit.parse (.separated m) = Parser.separated (limit.parse m.construct) := by
  rw [← limit_once]
  exact bind_congr fun first => rest_eq_whileNext (.member m) [first]

theorem limit_listed (m : Member α) :
    limit.parse (.listed m) = Parser.listed (limit.parse m.construct) := by
  rw [← limit_once, once, limit_separated]
  rfl

theorem limit_level (l : Level) :
    limit.parse (.level l) = Parser.chain l.number (limit.parse l.tighter) := by
  rw [← limit_once]
  exact bind_congr fun first => chain_eq_whileNext l first

theorem limit_levels : limit.parse .expr = levels (limit.parse .operand) := by
  rw [← limit_once]
  simp only [once, limit_level, Level.tighter, Level.number]
  rfl

theorem limit_index : limit.parse .index = Parser.index (limit.parse .expr) := by
  rw [← limit_once, once, limit_token, limit_token]
  rfl

theorem limit_arguments : limit.parse .arguments = Parser.arguments (limit.parse .expr) := by
  rw [← limit_once, once, limit_token, limit_token, limit_listed]
  rfl

/-! ## Under a bound -/

section

variable {k k' : Readers} {c c₀ : Cursor}

theorem Agree.round (hk : k.Agree k' c₀ n) (i : Item α) (items : List α) {u : Unit}
    (h : (c.rest.head?.map Token.kind).bind i.follows = some u) :
    Continues c₀ n (i.rank + 1) c (Built []) c (k.round i items) (k'.round i items)
      fun _ _ _ _ => True := by
  obtain ⟨kind, hkind, -⟩ := Option.bind_eq_some_iff.1 h
  unfold Readers.round
  cases i.isLed with
  | true =>
    refine hk.advance hkind fun c₁ => hk.bind (Construct.rank_lt _)
      (fun _ _ _ _ => i.description_construct) fun next c₂ _ => ?_
    exact continues_pure fun _ _ _ => trivial
  | false =>
    refine hk.bind i.rank_construct_lt (fun _ _ _ _ => i.description_construct) fun next c₂ _ => ?_
    exact continues_pure fun _ _ _ => trivial

theorem Agree.join (hk : k.Agree k' c₀ n) (l : Level) (lhs : Expr) {op : BinaryOp}
    (h : (c.rest.head?.map Token.kind).bind (operator? l.number) = some op) :
    Continues c₀ n 1 c (Built []) c (k.join l op lhs) (k'.join l op lhs) fun _ _ _ _ => True := by
  obtain ⟨kind, hkind, -⟩ := Option.bind_eq_some_iff.1 h
  refine hk.advance hkind fun c₁ => hk.bind (Construct.rank_lt _)
    (fun _ _ _ _ => l.description_tighter) fun rhs c₂ _ => ?_
  exact fun us js _ _ _ _ => Meets.of_id (meets_pure trivial) rfl rfl

theorem Agree.whileNext_round (hk : ∀ c, k.Agree limit c n) (i : Item α) (items : List α)
    (hc : (Construct.rest i items).depth c ≤ n + 1) :
    (whileNext i.follows (fun _ => k.round i) items).run c =
      (limit.parse (.rest i items)).run c := by
  refine (loops_rest i).whileNext_run (proceeds_round i) (fun c' u items h hle => ?_) items
    (Nat.le_refl c.rest.length)
  refine (((hk c').round i items h).meets ⟨[], [], .refl c'⟩ ?_).same
  rw [Construct.depth, Construct.rank] at hc
  omega

theorem Agree.whileNext_join (hk : ∀ c, k.Agree limit c n) (l : Level) (lhs : Expr)
    (hc : (Construct.chain l lhs).depth c ≤ n + 1) :
    (whileNext (operator? l.number) (k.join l) lhs).run c =
      (limit.parse (.chain l lhs)).run c := by
  refine (loops_chain l).whileNext_run (proceeds_join l) (fun c' op lhs h hle => ?_) lhs
    (Nat.le_refl c.rest.length)
  refine (((hk c').join l lhs h).meets ⟨[], [], .refl c'⟩ ?_).same
  rw [Construct.depth, Construct.rank] at hc
  omega

/-- Readers that either call each other as the grammar does or do what the unrolled grammar does
agree with it as deep as this holds. -/
theorem agree_limit_of (hadvance : k.advance = Parser.advance) {N : Nat}
    (h : ∀ n < N, (∀ c, k.Agree limit c n) → ∀ {α : Type} (r : Construct α) (c : Cursor),
      r.depth c ≤ n + 1 → k.parse r = k.once r ∨ (k.parse r).run c = (limit.parse r).run c)
    (hn : n ≤ N) (c : Cursor) : k.Agree limit c n := by
  have hpassing (c : Cursor) : k.Passing c := fun _ _ _ => by rw [hadvance]
  induction n generalizing c with
  | zero => exact agree_zero (hpassing c) fun _ _ _ => rfl
  | succ n ih =>
    have hk (c : Cursor) := ih (Nat.le_of_succ_le hn) c
    refine ⟨hpassing c, fun _ _ _ => rfl, fun r d _ hdepth => (limit_meets r d).of_run ?_ rfl⟩
    rcases h n hn hk r d hdepth with honce | hsame
    · have hnext := ((hk d).next.parse r d ⟨[], [], .refl d⟩ hdepth).same
      rw [honce, ← limit_once]
      exact hnext
    · exact hsame

end

/-! ## Expressions -/

def operandsFrom (o : Parser Expr) : Level → Parser Expr
  | .or => Parser.chain 2 (Parser.chain 3 (Parser.chain 4 (Parser.chain 5 o)))
  | .and => Parser.chain 3 (Parser.chain 4 (Parser.chain 5 o))
  | .relation => Parser.chain 4 (Parser.chain 5 o)
  | .sum => Parser.chain 5 o
  | .product => o

/-- The parsers of expressions over given operands; nothing else is read under their bound. -/
def expressionParser (o : Parser Expr) : {α : Type} → Construct α → Parser α
  | _, .index => Parser.index (levels o)
  | _, .arguments => Parser.arguments (levels o)
  | _, .call => do
      let callee ← ident
      let args ← Parser.arguments (levels o)
      return (callee, args)
  | _, .separated .argument => Parser.separated (levels o)
  | _, .listed .argument => Parser.listed (levels o)
  | _, .rest (.member .argument) items =>
      whileNext (Item.member .argument).follows (fun _ items => do
        Parser.advance
        let next ← levels o
        return items ++ [next]) items
  | _, .primary => Parser.primary (levels o)
  | _, .operand => o
  | _, .level l => Parser.chain l.number (operandsFrom o l)
  | _, .chain l lhs =>
      whileNext (operator? l.number) (fun op lhs => do
        Parser.advance
        let rhs ← operandsFrom o l
        return .binary (← mark lhs.mark.start) op lhs rhs) lhs
  | _, .expr => levels o
  | _, r => limit.parse r

def expressions (o : Parser Expr) : Readers := ⟨Parser.advance, expressionParser o⟩

section

variable (o : Parser Expr)

theorem expressions_parse (r : Construct α) : (expressions o).parse r = expressionParser o r := rfl

theorem expressions_token (kind : TokenKind) : (expressions o).parse (.token kind) = expect kind :=
  limit_token kind

theorem expressions_name : (expressions o).parse .name = ident := limit_name

theorem expressions_tighter (l : Level) : (expressions o).parse l.tighter = operandsFrom o l := by
  cases l <;> rfl

theorem expressions_unmarkedPrimary (kind : TokenKind) :
    (expressions o).unmarkedPrimary kind = Parser.unmarkedPrimary (levels o) kind := by
  unfold Readers.unmarkedPrimary Parser.unmarkedPrimary
  cases literalOf? kind with
  | some value => rfl
  | none =>
    cases kind with
    | ident name =>
      refine congrArg (peekSecond? >>= ·) (funext fun second => ?_)
      rw [expressions_name]
      rcases second with _ | (_ | s | _)
      case some.symbol =>
        cases s with
        | lparen =>
          change (do
            let callee ← ident
            let args ← Parser.arguments (levels o)
            return (callee, args)) >>= _ = _
          simp only [bind_assoc, pure_bind]
        | _ => rfl
      all_goals rfl
    | keyword w => cases w <;> rfl
    | symbol s =>
      cases s with
      | lparen =>
        rw [expressions_token]
        rfl
      | _ => rfl
    | _ => rfl

end

theorem expressions_agree {o : Parser Expr} {N : Nat}
    (ho : ∀ c : Cursor, (Construct.operand).depth c ≤ N →
      o.run c = (limit.parse .operand).run c) (hn : n ≤ N) (c : Cursor) :
    (expressions o).Agree limit c n := by
  refine agree_limit_of rfl (fun n hn hk α r c hdepth => ?_) hn c
  cases r with
  | index =>
    left
    rw [once, expressions_token, expressions_token]
    rfl
  | arguments =>
    left
    rw [once, expressions_token, expressions_token]
    rfl
  | call =>
    left
    rw [once, expressions_name]
    rfl
  | separated m =>
    cases m with
    | argument => exact .inl rfl
    | name => exact .inr rfl
    | parameter => exact .inr rfl
  | listed m =>
    cases m with
    | argument => exact .inl rfl
    | name => exact .inr rfl
    | parameter => exact .inr rfl
  | rest i items =>
    cases i with
    | member m =>
      cases m with
      | argument => exact .inr (Agree.whileNext_round hk (.member .argument) items hdepth)
      | name => exact .inr rfl
      | parameter => exact .inr rfl
    | declaration => exact .inr rfl
    | statement => exact .inr rfl
    | function => exact .inr rfl
  | primary =>
    left
    rw [once]
    simp only [expressions_unmarkedPrimary]
    rfl
  | operand => exact .inr (ho c (Nat.le_trans hdepth hn))
  | level l =>
    left
    rw [once, expressions_tighter]
    rfl
  | chain l lhs =>
    right
    have hsame := Agree.whileNext_join hk l lhs hdepth
    unfold Readers.join at hsame
    rw [expressions_tighter] at hsame
    exact hsame
  | expr => exact .inl rfl
  | _ =>
    right
    rw [expressions_parse]
    rfl

theorem operand_run (bound : List Token) {c : Cursor} (h : c.rest.length ≤ bound.length) :
    (Parser.operand bound).run c = (limit.parse .operand).run c := by
  induction bound generalizing c with
  | nil =>
    have hnil : c.rest = [] := List.eq_nil_of_length_eq_zero (Nat.le_zero.1 h)
    rw [← limit_once, once, Attempt.run_bind, peek_run_nil hnil]
    rfl
  | cons t bound ih =>
    have hagree := expressions_agree (o := Parser.operand bound) (N := 13 * bound.length + 16)
      (fun c hc => ih (by rw [Construct.depth, Construct.rank] at hc; omega)) (Nat.le_refl _) c
    rw [← limit_once]
    refine (hagree.next.parse .operand c ⟨[], [], .refl c⟩ ?_).same
    rw [Construct.depth, Construct.rank]
    rw [List.length_cons] at h
    omega

theorem limit_operand : limit.parse .operand = tight :=
  Attempt.ext fun c => (operand_run c.rest (Nat.le_refl c.rest.length)).symm

theorem limit_expr : limit.parse .expr = Parser.expr := by
  apply Attempt.ext
  intro c
  have hagree := expressions_agree (o := Parser.operand c.rest) (N := 13 * c.rest.length + 10)
    (fun d hd => operand_run c.rest (by rw [Construct.depth, Construct.rank] at hd; omega))
    (Nat.le_refl _) c
  exact (hagree.parse .expr c ⟨[], [], .refl c⟩ (Nat.le_refl _)).same.symm

theorem limit_call : limit.parse .call = Construct.parser .call := by
  rw [← limit_once, once, limit_name, limit_arguments, limit_expr]
  rfl

theorem limit_target : limit.parse .target = Parser.target := by
  rw [← limit_once, once, limit_name, limit_index, limit_expr]
  rfl

/-! ## Statements -/

/-- The parsers of statements over a given one; nothing else is read under its bound. -/
def statementParser (s : Parser Stmt) : {α : Type} → Construct α → Parser α
  | _, .rest .statement items =>
      whileNext (Item.statement).follows (fun _ items => do
        let next ← s
        return items ++ [next]) items
  | _, .statement => s
  | _, .statementOf kind => do
      let token ← peek
      let (simple, node) ← Parser.unmarkedStatement (Parser.statements s) kind
      if simple then expect (.symbol .semicolon)
      return node (← mark token.start)
  | _, .body => Parser.statements s
  | _, r => limit.parse r

def statements (s : Parser Stmt) : Readers := ⟨Parser.advance, statementParser s⟩

section

variable (s : Parser Stmt)

theorem statements_parse (r : Construct α) : (statements s).parse r = statementParser s r := rfl

theorem statements_token (kind : TokenKind) : (statements s).parse (.token kind) = expect kind :=
  (rfl : statementParser s (.token kind) = limit.parse (.token kind)).trans (limit_token kind)

theorem statements_unmarkedStatement (kind : TokenKind) :
    (statements s).unmarkedStatement kind =
      Parser.unmarkedStatement (Parser.statements s) kind := by
  have hlimit {α : Type} {r : Construct α} {p : Parser α} (hp : limit.parse r = p)
      (hr : statementParser s r = limit.parse r) : (statements s).parse r = p := hr.trans hp
  have hname := hlimit limit_name rfl
  have hcall := hlimit limit_call rfl
  have harguments := hlimit limit_arguments rfl
  have hexpr := hlimit limit_expr rfl
  have htarget := hlimit limit_target rfl
  rw [limit_expr] at harguments
  unfold Readers.unmarkedStatement Parser.unmarkedStatement
  simp only [statements_token, hname, hcall, harguments, hexpr, htarget]
  cases kind with
  | ident name =>
    refine congrArg (peekSecond? >>= ·) (funext fun second => ?_)
    rcases second with _ | (_ | s | _)
    case some.symbol =>
      cases s with
      | lparen => simp only [Construct.parser, bind_assoc, pure_bind]
      | _ => rfl
    all_goals rfl
  | keyword w => cases w <;> rfl
  | _ => rfl

end

theorem statements_agree {s : Parser Stmt} {N : Nat}
    (hs : ∀ c : Cursor, (Construct.statement).depth c ≤ N →
      s.run c = (limit.parse .statement).run c) (hn : n ≤ N) (c : Cursor) :
    (statements s).Agree limit c n := by
  refine agree_limit_of rfl (fun n hn hk α r c hdepth => ?_) hn c
  cases r with
  | rest i items =>
    cases i with
    | statement => exact .inr (Agree.whileNext_round hk .statement items hdepth)
    | member m => exact .inr rfl
    | declaration => exact .inr rfl
    | function => exact .inr rfl
  | statement => exact .inr (hs c (Nat.le_trans hdepth hn))
  | statementOf kind =>
    left
    rw [once, statements_unmarkedStatement, statements_token]
    rfl
  | body => exact .inl rfl
  | _ =>
    right
    rw [statements_parse]
    rfl

/-- The kind of the next token is looked up twice, for a statement and by it. -/
theorem statement_run_cons (t : Token) (bound : List Token) (c : Cursor) :
    (Parser.statement (t :: bound)).run c =
      ((statements (Parser.statement bound)).once .statement).run c := by
  rw [Parser.statement, once, Attempt.run_bind, Attempt.run_bind]
  cases hrest : c.rest with
  | nil => rw [peek_run_nil hrest]
  | cons t rest =>
    rw [peek_run_cons hrest]
    change _ = (statementParser _ (.statementOf t.kind)).run c
    rw [statementParser, Attempt.run_bind, peek_run_cons hrest]

theorem statement_run (bound : List Token) {c : Cursor} (h : c.rest.length ≤ bound.length) :
    (Parser.statement bound).run c = (limit.parse .statement).run c := by
  induction bound generalizing c with
  | nil =>
    have hnil : c.rest = [] := List.eq_nil_of_length_eq_zero (Nat.le_zero.1 h)
    rw [← limit_once, once, Attempt.run_bind, peek_run_nil hnil]
    rfl
  | cons t bound ih =>
    have hagree := statements_agree (s := Parser.statement bound) (N := 13 * bound.length + 16)
      (fun c hc => ih (by rw [Construct.depth, Construct.rank] at hc; omega)) (Nat.le_refl _) c
    rw [← limit_once, statement_run_cons]
    refine (hagree.next.parse .statement c ⟨[], [], .refl c⟩ ?_).same
    rw [Construct.depth, Construct.rank]
    rw [List.length_cons] at h
    omega

theorem limit_statement : limit.parse .statement = oneStatement :=
  Attempt.ext fun c => (statement_run c.rest (Nat.le_refl c.rest.length)).symm

theorem limit_body : limit.parse .body = Parser.body := by
  apply Attempt.ext
  intro c
  have hagree := statements_agree (s := Parser.statement c.rest) (N := 13 * c.rest.length + 6)
    (fun d hd => statement_run c.rest (by rw [Construct.depth, Construct.rank] at hd; omega))
    (Nat.le_refl _) c
  exact (hagree.parse .body c ⟨[], [], .refl c⟩ (Nat.le_refl _)).same.symm

/-! ## Functions and programs -/

theorem limit_parameter : limit.parse .parameter = Parser.parameter := by
  rw [← limit_once, once, limit_name, limit_token, limit_typeNote]
  rfl

theorem limit_result : limit.parse .result = Parser.result := by
  rw [← limit_once, once, limit_baseType]
  rfl

theorem limit_member (m : Member α) : limit.parse m.construct = m.parser := by
  cases m with
  | name => exact limit_name
  | argument => exact limit_expr
  | parameter => exact limit_parameter

theorem limit_declaration : limit.parse .declaration = declared := by
  rw [← limit_once, once, limit_separated, limit_member, limit_token, limit_typeNote]
  rfl

theorem limit_declarations : limit.parse .declarations = Parser.declarations := by
  rw [← limit_once, once, rest_eq_whileNext, Parser.declarations]
  refine congrArg (whileNext _ · []) (funext fun _ => funext fun decls => ?_)
  unfold round
  rw [show limit.parse (Item.declaration).construct = declared from limit_declaration]
  simp only [declaration, declared, bind_assoc, pure_bind]
  rfl

theorem limit_function : limit.parse .function = Parser.function := by
  rw [← limit_once, once, limit_name, limit_listed, limit_member, limit_result,
    limit_declarations, limit_body]
  simp only [limit_token]
  rfl

theorem limit_item (i : Item α) : limit.parse i.construct = i.parser := by
  cases i with
  | member m => exact limit_member m
  | declaration => exact limit_declaration
  | statement => exact limit_statement
  | function => exact limit_function

theorem limit_round (i : Item α) : limit.round i = i.step := by
  unfold round Item.step
  rw [limit_item]
  rfl

theorem limit_rest (i : Item α) (items : List α) :
    limit.parse (.rest i items) = whileNext i.follows (fun _ => i.step) items := by
  rw [rest_eq_whileNext, limit_round]

theorem limit_tighter (l : Level) : limit.parse l.tighter = l.operand := by
  cases l with
  | product => exact limit_operand
  | _ => simp only [Level.tighter, limit_level, Level.operand, Level.number, limit_operand]

theorem limit_join (l : Level) : limit.join l = l.step := by
  unfold join Level.step
  rw [limit_tighter]
  rfl

theorem limit_chain (l : Level) (lhs : Expr) :
    limit.parse (.chain l lhs) = whileNext (operator? l.number) l.step lhs := by
  rw [chain_eq_whileNext, limit_join]

theorem limit_program : limit.parse .program = Parser.program := by
  rw [← limit_once, once, limit_rest, ← functions_eq]
  rfl

theorem limit_primary : limit.parse .primary = Parser.primary Parser.expr := by
  apply Attempt.ext
  intro c
  have hagree := expressions_agree (o := tight) (N := 13 * c.rest.length + 3)
    (fun d _ => by rw [limit_operand]) (Nat.le_refl _) c
  rw [← limit_expr, limit_levels, limit_operand]
  exact (hagree.parse .primary c ⟨[], [], .refl c⟩ (Nat.le_refl _)).same.symm

theorem limit_statementOf (kind : TokenKind) :
    limit.parse (.statementOf kind) = Parser.statementOf kind := by
  apply Attempt.ext
  intro c
  have hagree := statements_agree (s := oneStatement) (N := 13 * c.rest.length + 3)
    (fun d _ => by rw [limit_statement]) (Nat.le_refl _) c
  have hbody : Parser.body = Parser.statements oneStatement := by
    rw [← limit_body, ← limit_once, once, limit_rest]
    rfl
  rw [Parser.statementOf, hbody]
  exact (hagree.parse (.statementOf kind) c ⟨[], [], .refl c⟩ (Nat.le_refl _)).same.symm

theorem limit_parse (r : Construct α) : limit.parse r = r.parser := by
  cases r with
  | token kind => exact limit_token kind
  | name => exact limit_name
  | baseType => exact limit_baseType
  | arraySize => exact limit_arraySize
  | typeSpec => exact limit_typeSpec
  | typeNote => exact limit_typeNote
  | index => rw [limit_index, limit_expr]; rfl
  | arguments => rw [limit_arguments, limit_expr]; rfl
  | call => exact limit_call
  | separated m => rw [limit_separated, limit_member]; rfl
  | listed m => rw [limit_listed, limit_member]; rfl
  | rest i items => exact limit_rest i items
  | primary => exact limit_primary
  | operand => exact limit_operand
  | level l => rw [limit_level, limit_tighter]; rfl
  | chain l lhs => exact limit_chain l lhs
  | expr => exact limit_expr
  | target => exact limit_target
  | statement => exact limit_statement
  | statementOf kind => exact limit_statementOf kind
  | body => exact limit_body
  | parameter => exact limit_parameter
  | result => exact limit_result
  | declaration => exact limit_declaration
  | declarations => exact limit_declarations
  | function => exact limit_function
  | program => exact limit_program

end Readers

theorem grammar_eq_limit : grammar = limit :=
  congrArg (Readers.mk advance) (funext fun _ => funext fun r => (Readers.limit_parse r).symm)

/-- Each parser of the language calls the others as the grammar does. -/
theorem grammar_once (r : Construct α) : grammar.once r = r.parser := by
  rw [grammar_eq_limit, limit_once, Readers.limit_parse]

theorem Item.loops (i : Item α) :
    Loops i.follows (fun _ => i.step) (whileNext i.follows fun _ => i.step) := by
  have hloops := Readers.loops_rest i
  rwa [Readers.limit_round, funext (Readers.limit_rest i)] at hloops

theorem Item.proceeds (i : Item α) : Proceeds i.follows fun _ => i.step :=
  Readers.limit_round i ▸ Readers.proceeds_round i

theorem Level.loops (l : Level) :
    Loops (operator? l.number) l.step (whileNext (operator? l.number) l.step) := by
  have hloops := Readers.loops_chain l
  rwa [Readers.limit_join, funext (Readers.limit_chain l)] at hloops

theorem Level.proceeds (l : Level) : Proceeds (operator? l.number) l.step :=
  Readers.limit_join l ▸ Readers.proceeds_join l

theorem expr_eq : expr = levels tight := by
  rw [← Readers.limit_expr, Readers.limit_levels, Readers.limit_operand]

theorem tight_eq : tight = (do
    let token ← peek
    match UnaryOp.ofToken? token.kind with
    | some op => do
        advance
        let inner ← tight
        return .unary (← mark token.start) op inner
    | none => primary expr) := (grammar_once .operand).symm

theorem body_eq : body = whileNext (Item.statement).follows (fun _ => (Item.statement).step) [] :=
  (grammar_once .body).symm

theorem oneStatement_eq : oneStatement = (do
    let token ← peek
    statementOf token.kind) := (grammar_once .statement).symm

theorem declarations_eq :
    declarations = whileNext (Item.declaration).follows (fun _ => (Item.declaration).step) [] :=
  (grammar_once .declarations).symm

theorem program_eq : program = (do
    let id ← freshId
    let functions ← whileNext (Item.function).follows (fun _ => (Item.function).step) []
    atEnd
    if functions.isEmpty then fail .noFunction else return ⟨id, functions⟩) :=
  (grammar_once .program).symm

theorem Construct.meets (r : Construct α) (c : Cursor) :
    Meets c r.parser r.parser (r.description c) := by
  rw [← Readers.limit_parse]
  exact limit_meets r c

end Asl.Parser
