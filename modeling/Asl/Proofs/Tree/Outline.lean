import Asl.Proofs.Tree.Kinds
import Asl.Proofs.Tree.Marks

/-!
# Outlines

The outline of a tree says of every node what it is built from, in the order of the text: tokens of
its own and further nodes. So it has the marks of the tree, and the kinds that the tree flattens to.
An outline covers a part of a token list if its tokens are there, one behind the other, and if each
of its nodes begins where its first token begins and ends where its last token ends. Since tokens do
not overlap, neither do the nodes that are parts of one node.
-/
namespace Asl

/-- A token, or a node with what it is built from. A node is numbered before its parts or after
them. -/
inductive Outline
  | token (kind : TokenKind)
  | node (before : Bool) (mark : Mark) (parts : List Outline)
deriving Repr, Inhabited

namespace Outline

def commas : List (List Outline) → List Outline
  | [] => []
  | os :: oss => os ++ oss.flatMap (token (.symbol .comma) :: ·)

def parens (os : List Outline) : List Outline :=
  token (.symbol .lparen) :: (os ++ [token (.symbol .rparen)])

def brackets (os : List Outline) : List Outline :=
  token (.symbol .lbracket) :: (os ++ [token (.symbol .rbracket)])

mutual

/-- The identities in the order in which reading hands them out. -/
def ids : Outline → List NodeId
  | .token _ => []
  | .node before m parts => if before then m.id :: idsAll parts else idsAll parts ++ [m.id]

def idsAll : List Outline → List NodeId
  | [] => []
  | o :: os => o.ids ++ idsAll os

end

mutual

def marks : Outline → List Mark
  | .token _ => []
  | .node before m parts => if before then m :: marksAll parts else marksAll parts ++ [m]

def marksAll : List Outline → List Mark
  | [] => []
  | o :: os => o.marks ++ marksAll os

end

mutual

def kinds : Outline → List TokenKind
  | .token k => [k]
  | .node _ _ parts => kindsAll parts

def kindsAll : List Outline → List TokenKind
  | [] => []
  | o :: os => o.kinds ++ kindsAll os

end

theorem ind {motive : Outline → Prop} (token : ∀ k, motive (.token k))
    (node : ∀ before m parts, (∀ o ∈ parts, motive o) → motive (.node before m parts))
    (o : Outline) : motive o :=
  o.rec (motive_1 := motive) (motive_2 := fun os => ∀ o ∈ os, motive o) token node
    (fun _ h => absurd h List.not_mem_nil)
    (fun _ _ head tail => List.forall_mem_cons.2 ⟨head, tail⟩)

theorem idsAll_of_marks {os : List Outline} (h : ∀ o ∈ os, o.ids = o.marks.map Mark.id) :
    idsAll os = (marksAll os).map Mark.id := by
  induction os with
  | nil => rfl
  | cons o os ih =>
    obtain ⟨ho, hos⟩ := List.forall_mem_cons.1 h
    rw [idsAll, marksAll, List.map_append, ho, ih hos]

theorem ids_eq_map (o : Outline) : o.ids = o.marks.map Mark.id := by
  induction o using ind with
  | token k => rfl
  | node before m parts ih =>
    rw [ids, marks, idsAll_of_marks ih]
    cases before <;> simp

theorem idsAll_eq_map (os : List Outline) : idsAll os = (marksAll os).map Mark.id :=
  idsAll_of_marks fun o _ => o.ids_eq_map

theorem marksAll_eq_flatMap (os : List Outline) : marksAll os = os.flatMap marks := by
  induction os with
  | nil => rfl
  | cons o os ih => rw [marksAll, ih, List.flatMap_cons]

@[simp] theorem marksAll_append (os os' : List Outline) :
    marksAll (os ++ os') = marksAll os ++ marksAll os' := by
  rw [marksAll_eq_flatMap, marksAll_eq_flatMap, marksAll_eq_flatMap, List.flatMap_append]

@[simp] theorem marksAll_tokens (ks : List TokenKind) : marksAll (ks.map token) = [] := by
  induction ks with
  | nil => rfl
  | cons k ks ih => rw [List.map_cons, marksAll, ih, marks, List.append_nil]

@[simp] theorem marksAll_commas (oss : List (List Outline)) :
    marksAll (commas oss) = oss.flatMap marksAll := by
  have hcommas (oss : List (List Outline)) :
      marksAll (oss.flatMap (token (.symbol .comma) :: ·)) = oss.flatMap marksAll := by
    induction oss with
    | nil => rfl
    | cons os oss ih =>
      rw [List.flatMap_cons, List.flatMap_cons, marksAll_append, ih, marksAll, marks,
        List.nil_append]
  cases oss with
  | nil => rfl
  | cons os oss => rw [commas, marksAll_append, hcommas, List.flatMap_cons]

@[simp] theorem marksAll_parens (os : List Outline) : marksAll (parens os) = marksAll os := by
  simp [parens, marksAll, marks]

@[simp] theorem marksAll_brackets (os : List Outline) : marksAll (brackets os) = marksAll os := by
  simp [brackets, marksAll, marks]

theorem kindsAll_eq_flatMap (os : List Outline) : kindsAll os = os.flatMap kinds := by
  induction os with
  | nil => rfl
  | cons o os ih => rw [kindsAll, ih, List.flatMap_cons]

@[simp] theorem kindsAll_append (os os' : List Outline) :
    kindsAll (os ++ os') = kindsAll os ++ kindsAll os' := by
  rw [kindsAll_eq_flatMap, kindsAll_eq_flatMap, kindsAll_eq_flatMap, List.flatMap_append]

@[simp] theorem kindsAll_tokens (ks : List TokenKind) : kindsAll (ks.map token) = ks := by
  induction ks with
  | nil => rfl
  | cons k ks ih => rw [List.map_cons, kindsAll, ih, kinds, List.singleton_append]

@[simp] theorem kindsAll_commas (oss : List (List Outline)) :
    kindsAll (commas oss) = commaSeparated (oss.map kindsAll) := by
  cases oss with
  | nil => rfl
  | cons os oss =>
    rw [commas, kindsAll_append, List.map_cons, commaSeparated, List.flatMap_map,
      kindsAll_eq_flatMap (oss.flatMap _), List.flatMap_assoc]
    refine congrArg (kindsAll os ++ oss.flatMap ·) (funext fun os => ?_)
    rw [List.flatMap_cons, ← kindsAll_eq_flatMap]
    rfl

@[simp] theorem kindsAll_parens (os : List Outline) :
    kindsAll (parens os) = inParens (kindsAll os) := by
  simp [parens, kindsAll, kinds, inParens]

@[simp] theorem kindsAll_brackets (os : List Outline) :
    kindsAll (brackets os) = inBrackets (kindsAll os) := by
  simp [brackets, kindsAll, kinds, inBrackets]

end Outline

open Outline (commas parens brackets)

def Ident.outline (x : Ident) : Outline := .node false x.mark [.token (.ident x.name)]

mutual

def Expr.outline : Expr → Outline
  | .literal m value => .node false m [.token value.token]
  | .name m x => .node false m [x.outline]
  | .element m base index => .node false m (base.outline :: brackets [index.outline])
  | .call m callee args =>
      .node false m (callee.outline :: parens (commas (Expr.outlines args)))
  | .paren m inner => .node false m (parens [inner.outline])
  | .unary m op operand => .node false m [.token op.token, operand.outline]
  | .binary m op lhs rhs => .node false m [lhs.outline, .token op.token, rhs.outline]
  | .max m args =>
      .node false m (.token (.keyword .max) :: parens (commas (Expr.outlines args)))

def Expr.outlines : List Expr → List (List Outline)
  | [] => []
  | e :: es => [e.outline] :: Expr.outlines es

end

theorem Expr.exists_outline (e : Expr) : ∃ parts, e.outline = .node false e.mark parts := by
  cases e <;> exact ⟨_, rfl⟩

theorem Expr.outlines_eq_map (es : List Expr) : Expr.outlines es = es.map ([·.outline]) := by
  induction es with
  | nil => rfl
  | cons e es ih => rw [Expr.outlines, ih, List.map_cons]

def Target.outline : Target → Outline
  | .name m x => .node false m [x.outline]
  | .element m base index => .node false m (base.outline :: brackets [index.outline])

mutual

def Stmt.outline : Stmt → Outline
  | .assign m target value =>
      .node false m [target.outline, .token (.symbol .assign), value.outline,
        .token (.symbol .semicolon)]
  | .ifThen m condition body =>
      .node false m (.token (.keyword .if) :: condition.outline :: .token (.keyword .then) ::
        (Stmt.outlines body ++ [.token (.keyword .endif)]))
  | .ifElse m condition body otherwise =>
      .node false m (.token (.keyword .if) :: condition.outline :: .token (.keyword .then) ::
        (Stmt.outlines body ++ .token (.keyword .else) ::
          (Stmt.outlines otherwise ++ [.token (.keyword .endif)])))
  | .while m condition body =>
      .node false m (.token (.keyword .while) :: condition.outline :: .token (.keyword .do) ::
        (Stmt.outlines body ++ [.token (.keyword .endwhile)]))
  | .for m control range body =>
      .node false m (.token (.keyword .for) :: control.outline :: .token (.keyword .in) ::
        .token (.keyword .range) :: (parens (commas (Expr.outlines range)) ++
          .token (.keyword .do) :: (Stmt.outlines body ++ [.token (.keyword .endfor)])))
  | .call m callee args =>
      .node false m (callee.outline :: (parens (commas (Expr.outlines args)) ++
        [.token (.symbol .semicolon)]))
  | .read m target =>
      .node false m [.token (.keyword .read), target.outline, .token (.symbol .semicolon)]
  | .write m value =>
      .node false m [.token (.keyword .write), value.outline, .token (.symbol .semicolon)]
  | .writeText m raw =>
      .node false m [.token (.keyword .write), .token (.text raw), .token (.symbol .semicolon)]
  | .ret m none => .node false m [.token (.keyword .return), .token (.symbol .semicolon)]
  | .ret m (some value) =>
      .node false m [.token (.keyword .return), value.outline, .token (.symbol .semicolon)]

def Stmt.outlines : List Stmt → List Outline
  | [] => []
  | s :: ss => s.outline :: Stmt.outlines ss

end

theorem Stmt.outlines_eq_map (ss : List Stmt) : Stmt.outlines ss = ss.map Stmt.outline := by
  induction ss with
  | nil => rfl
  | cons s ss ih => rw [Stmt.outlines, ih, List.map_cons]

def TypeNote.outline (t : TypeNote) : Outline := .node false t.mark (t.spec.kinds.map .token)

def Parameter.outlines (q : Parameter) : List Outline :=
  [q.name.outline, .token (.symbol .colon), q.type.outline]

def Declaration.outlines (d : Declaration) : List Outline :=
  .token (.keyword .var) :: (commas (d.names.map ([·.outline])) ++
    [.token (.symbol .colon), d.type.outline])

def TypeNote.resultOutlines : Option TypeNote → List Outline
  | none => []
  | some t => [.token (.symbol .colon), t.outline]

def Function.outline (f : Function) : Outline :=
  .node true f.mark (.token (.keyword .func) :: f.name.outline ::
    (parens (commas (f.params.map Parameter.outlines)) ++
      (TypeNote.resultOutlines f.result ++ (f.declarations.flatMap Declaration.outlines ++
        (Stmt.outlines f.body ++ [.token (.keyword .endfunc)])))))

def Program.outlines (p : Program) : List Outline := p.functions.map Function.outline

@[simp] theorem Ident.marks_outline (x : Ident) : x.outline.marks = [x.mark] := rfl

theorem Expr.marks_outlines {es : List Expr} (h : ∀ e ∈ es, e.outline.marks = e.marks) :
    (Expr.outlines es).flatMap Outline.marksAll = Expr.marksAll es := by
  induction es with
  | nil => rfl
  | cons e es ih =>
    obtain ⟨he, hes⟩ := List.forall_mem_cons.1 h
    rw [Expr.outlines, List.flatMap_cons, ih hes, Outline.marksAll, Outline.marksAll,
      List.append_nil, he, Expr.marksAll]

@[simp] theorem Expr.marks_outline (e : Expr) : e.outline.marks = e.marks := by
  induction e using Expr.ind with
  | literal m v => rfl
  | name m x => rfl
  | element m base index ih => simp [outline, Outline.marks, Outline.marksAll, ih, Expr.marks]
  | call m callee args ih =>
    simp [outline, Outline.marks, Outline.marksAll, Expr.marks_outlines ih, Expr.marks]
  | paren m inner ih => simp [outline, Outline.marks, Outline.marksAll, ih, Expr.marks]
  | unary m op operand ih => simp [outline, Outline.marks, Outline.marksAll, ih, Expr.marks]
  | binary m op lhs rhs ihl ihr =>
    simp [outline, Outline.marks, Outline.marksAll, ihl, ihr, Expr.marks]
  | max m args ih =>
    simp [outline, Outline.marks, Outline.marksAll, Expr.marks_outlines ih, Expr.marks]

@[simp] theorem Expr.marks_allOutlines (es : List Expr) :
    (Expr.outlines es).flatMap Outline.marksAll = Expr.marksAll es :=
  Expr.marks_outlines fun e _ => e.marks_outline

@[simp] theorem Target.marks_outline (t : Target) : t.outline.marks = t.marks := by
  cases t with
  | name m x => rfl
  | element m base index => simp [outline, Outline.marks, Outline.marksAll, Target.marks]

theorem Stmt.marks_outlines {ss : List Stmt} (h : ∀ s ∈ ss, s.outline.marks = s.marks) :
    Outline.marksAll (Stmt.outlines ss) = Stmt.marksAll ss := by
  induction ss with
  | nil => rfl
  | cons s ss ih =>
    obtain ⟨hs, hss⟩ := List.forall_mem_cons.1 h
    rw [Stmt.outlines, Outline.marksAll, ih hss, hs, Stmt.marksAll]

theorem Stmt.marks_outline (s : Stmt) : s.outline.marks = s.marks := by
  induction s using Stmt.ind with
  | assign m target value => simp [outline, Outline.marks, Outline.marksAll, Stmt.marks]
  | ifThen m condition body ih =>
    simp [outline, Outline.marks, Outline.marksAll, Stmt.marks_outlines ih, Stmt.marks]
  | ifElse m condition body otherwise ihb iho =>
    simp [outline, Outline.marks, Outline.marksAll, Stmt.marks_outlines ihb,
      Stmt.marks_outlines iho, Stmt.marks]
  | while_ m condition body ih =>
    simp [outline, Outline.marks, Outline.marksAll, Stmt.marks_outlines ih, Stmt.marks]
  | for_ m control range body ih =>
    simp [outline, Outline.marks, Outline.marksAll, Stmt.marks_outlines ih, Stmt.marks]
  | call m callee args => simp [outline, Outline.marks, Outline.marksAll, Stmt.marks]
  | read m target => simp [outline, Outline.marks, Outline.marksAll, Stmt.marks]
  | write m value => simp [outline, Outline.marks, Outline.marksAll, Stmt.marks]
  | writeText m raw => rfl
  | ret m value => cases value <;> simp [outline, Outline.marks, Outline.marksAll, Stmt.marks]

@[simp] theorem Stmt.marks_allOutlines (ss : List Stmt) :
    Outline.marksAll (Stmt.outlines ss) = Stmt.marksAll ss :=
  Stmt.marks_outlines fun s _ => s.marks_outline

@[simp] theorem TypeNote.marks_outline (t : TypeNote) : t.outline.marks = [t.mark] := by
  simp [outline, Outline.marks]

theorem Parameter.marks_outlines (q : Parameter) : Outline.marksAll q.outlines = q.marks := by
  simp [outlines, Outline.marksAll, Outline.marks, Parameter.marks]

theorem Declaration.marks_outlines (d : Declaration) : Outline.marksAll d.outlines = d.marks := by
  have hnames : (d.names.map ([·.outline])).flatMap Outline.marksAll = d.names.map (·.mark) := by
    rw [List.flatMap_map, ← List.flatMap_singleton' (d.names.map _), List.flatMap_map]
    rfl
  simp [outlines, Outline.marksAll, Outline.marks, hnames, Declaration.marks]

theorem TypeNote.marks_resultOutlines (r : Option TypeNote) :
    Outline.marksAll (resultOutlines r) = (r.map (·.mark)).toList := by
  cases r with
  | none => rfl
  | some t => simp [resultOutlines, Outline.marksAll, Outline.marks]

theorem Function.marks_outline (f : Function) : f.outline.marks = f.marks := by
  have hparams : (f.params.map Parameter.outlines).flatMap Outline.marksAll =
      f.params.flatMap Parameter.marks := by
    rw [List.flatMap_map]
    exact congrArg (List.flatMap · f.params) (funext Parameter.marks_outlines)
  have hdecls : Outline.marksAll (f.declarations.flatMap Declaration.outlines) =
      f.declarations.flatMap Declaration.marks := by
    rw [Outline.marksAll_eq_flatMap, List.flatMap_assoc]
    refine congrArg (List.flatMap · f.declarations) (funext fun d => ?_)
    rw [← Outline.marksAll_eq_flatMap, Declaration.marks_outlines]
  simp [outline, Outline.marks, Outline.marksAll, hparams, hdecls,
    TypeNote.marks_resultOutlines, Function.marks, Function.headerMarks]

theorem Program.marks_outlines (p : Program) :
    Outline.marksAll p.outlines = p.functions.flatMap Function.marks := by
  rw [outlines, Outline.marksAll_eq_flatMap, List.flatMap_map]
  exact congrArg (List.flatMap · p.functions) (funext Function.marks_outline)

@[simp] theorem Ident.kinds_outline (x : Ident) : x.outline.kinds = [.ident x.name] := rfl

theorem Expr.kinds_outlines {es : List Expr} (h : ∀ e ∈ es, e.outline.kinds = e.kinds) :
    (Expr.outlines es).map Outline.kindsAll = Expr.kindsAll es := by
  induction es with
  | nil => rfl
  | cons e es ih =>
    obtain ⟨he, hes⟩ := List.forall_mem_cons.1 h
    rw [Expr.outlines, List.map_cons, ih hes, Outline.kindsAll, Outline.kindsAll,
      List.append_nil, he, Expr.kindsAll]

@[simp] theorem Expr.kinds_outline (e : Expr) : e.outline.kinds = e.kinds := by
  induction e using Expr.ind with
  | literal m v => rfl
  | name m x => rfl
  | element m base index ih => simp [outline, Outline.kinds, Outline.kindsAll, ih, Expr.kinds]
  | call m callee args ih =>
    simp [outline, Outline.kinds, Outline.kindsAll, Expr.kinds_outlines ih, Expr.kinds]
  | paren m inner ih => simp [outline, Outline.kinds, Outline.kindsAll, ih, Expr.kinds]
  | unary m op operand ih => simp [outline, Outline.kinds, Outline.kindsAll, ih, Expr.kinds]
  | binary m op lhs rhs ihl ihr =>
    simp [outline, Outline.kinds, Outline.kindsAll, ihl, ihr, Expr.kinds]
  | max m args ih =>
    simp [outline, Outline.kinds, Outline.kindsAll, Expr.kinds_outlines ih, Expr.kinds]

@[simp] theorem Expr.kinds_allOutlines (es : List Expr) :
    (Expr.outlines es).map Outline.kindsAll = es.map Expr.kinds := by
  rw [Expr.kinds_outlines fun e _ => e.kinds_outline, Expr.kindsAll_eq_map]

@[simp] theorem Target.kinds_outline (t : Target) : t.outline.kinds = t.kinds := by
  cases t with
  | name m x => rfl
  | element m base index => simp [outline, Outline.kinds, Outline.kindsAll, Target.kinds]

theorem Stmt.kinds_outlines {ss : List Stmt} (h : ∀ s ∈ ss, s.outline.kinds = s.kinds) :
    Outline.kindsAll (Stmt.outlines ss) = Stmt.kindsAll ss := by
  induction ss with
  | nil => rfl
  | cons s ss ih =>
    obtain ⟨hs, hss⟩ := List.forall_mem_cons.1 h
    rw [Stmt.outlines, Outline.kindsAll, ih hss, hs, Stmt.kindsAll]

theorem Stmt.kinds_outline (s : Stmt) : s.outline.kinds = s.kinds := by
  induction s using Stmt.ind with
  | assign m target value => simp [outline, Outline.kinds, Outline.kindsAll, Stmt.kinds]
  | ifThen m condition body ih =>
    simp [outline, Outline.kinds, Outline.kindsAll, Stmt.kinds_outlines ih, Stmt.kinds]
  | ifElse m condition body otherwise ihb iho =>
    simp [outline, Outline.kinds, Outline.kindsAll, Stmt.kinds_outlines ihb,
      Stmt.kinds_outlines iho, Stmt.kinds]
  | while_ m condition body ih =>
    simp [outline, Outline.kinds, Outline.kindsAll, Stmt.kinds_outlines ih, Stmt.kinds]
  | for_ m control range body ih =>
    simp [outline, Outline.kinds, Outline.kindsAll, Stmt.kinds_outlines ih, Stmt.kinds]
  | call m callee args => simp [outline, Outline.kinds, Outline.kindsAll, Stmt.kinds]
  | read m target => simp [outline, Outline.kinds, Outline.kindsAll, Stmt.kinds]
  | write m value => simp [outline, Outline.kinds, Outline.kindsAll, Stmt.kinds]
  | writeText m raw => rfl
  | ret m value => cases value <;> simp [outline, Outline.kinds, Outline.kindsAll, Stmt.kinds]

@[simp] theorem Stmt.kinds_allOutlines (ss : List Stmt) :
    Outline.kindsAll (Stmt.outlines ss) = Stmt.kindsAll ss :=
  Stmt.kinds_outlines fun s _ => s.kinds_outline

@[simp] theorem TypeNote.kinds_outline (t : TypeNote) : t.outline.kinds = t.spec.kinds := by
  simp [outline, Outline.kinds]

theorem Parameter.kinds_outlines (q : Parameter) : Outline.kindsAll q.outlines = q.kinds := by
  simp [outlines, Outline.kindsAll, Outline.kinds, Parameter.kinds]

theorem Declaration.kinds_outlines (d : Declaration) : Outline.kindsAll d.outlines = d.kinds := by
  have hnames : (d.names.map ([·.outline])).map Outline.kindsAll =
      d.names.map fun x => [.ident x.name] := List.map_map
  simp [outlines, Outline.kindsAll, Outline.kinds, hnames, Declaration.kinds]

theorem TypeNote.kinds_resultOutlines (r : Option TypeNote) :
    Outline.kindsAll (resultOutlines r) = resultKinds r := by
  cases r with
  | none => rfl
  | some t => simp [resultOutlines, resultKinds, Outline.kindsAll, Outline.kinds]

theorem Function.kinds_outline (f : Function) : f.outline.kinds = f.kinds := by
  have hparams : (f.params.map Parameter.outlines).map Outline.kindsAll =
      f.params.map Parameter.kinds := by
    rw [List.map_map]
    exact congrArg (List.map · f.params) (funext Parameter.kinds_outlines)
  have hdecls : Outline.kindsAll (f.declarations.flatMap Declaration.outlines) =
      f.declarations.flatMap Declaration.kinds := by
    rw [Outline.kindsAll_eq_flatMap, List.flatMap_assoc]
    refine congrArg (List.flatMap · f.declarations) (funext fun d => ?_)
    rw [← Outline.kindsAll_eq_flatMap, Declaration.kinds_outlines]
  simp [outline, Outline.kinds, Outline.kindsAll, hparams, hdecls,
    TypeNote.kinds_resultOutlines, Function.kinds]

theorem Program.kinds_outlines (p : Program) : Outline.kindsAll p.outlines = p.kinds := by
  rw [outlines, Outline.kindsAll_eq_flatMap, List.flatMap_map]
  exact congrArg (List.flatMap · p.functions) (funext Function.kinds_outline)

theorem Program.ids_eq (p : Program) : p.ids = p.id :: Outline.idsAll p.outlines := by
  rw [Outline.idsAll_eq_map, p.marks_outlines, p.map_id_marks]
  rfl

def InSequence (ts : List Token) : Prop :=
  (∀ t ∈ ts, t.start < t.stop) ∧ ts.Pairwise fun t t' => t.stop ≤ t'.start

theorem InSequence.append {ts us : List Token} (h : InSequence (ts ++ us)) :
    InSequence ts ∧ InSequence us ∧ ∀ t ∈ ts, ∀ u ∈ us, t.stop ≤ u.start := by
  obtain ⟨hspans, hordered⟩ := h
  obtain ⟨hts, hus⟩ := List.forall_mem_append.1 hspans
  obtain ⟨hts', hus', hcross⟩ := List.pairwise_append.1 hordered
  exact ⟨⟨hts, hts'⟩, ⟨hus, hus'⟩, hcross⟩

theorem InSequence.within {ts : List Token} (h : InSequence ts) {a b : Nat}
    (ha : ts.head?.map Token.start = some a) (hb : ts.getLast?.map Token.stop = some b) :
    a < b ∧ ∀ t ∈ ts, a ≤ t.start ∧ t.stop ≤ b := by
  obtain ⟨first, hfirst, rfl⟩ := Option.map_eq_some_iff.1 ha
  obtain ⟨last, hlast, rfl⟩ := Option.map_eq_some_iff.1 hb
  obtain ⟨tail, rfl⟩ := List.head?_eq_some_iff.1 hfirst
  obtain ⟨init, hinit⟩ := List.getLast?_eq_some_iff.1 hlast
  have hlow : ∀ t ∈ first :: tail, first.start ≤ t.start := by
    refine List.forall_mem_cons.2 ⟨Nat.le_refl _, fun t ht => ?_⟩
    have hnext := (List.pairwise_cons.1 h.2).1 t ht
    have hspan := h.1 first List.mem_cons_self
    omega
  have hhigh : ∀ t ∈ first :: tail, t.stop ≤ last.stop := by
    have hordered := h.2
    rw [hinit] at hordered
    have hspans := h.1
    rw [hinit] at hspans ⊢
    refine List.forall_mem_append.2 ⟨fun t ht => ?_, by simp⟩
    have hnext := (List.pairwise_append.1 hordered).2.2 t ht last (List.mem_singleton_self last)
    have hspan := hspans last (by simp)
    omega
  have hfirstSpan := h.1 first List.mem_cons_self
  have hfirstHigh := hhigh first List.mem_cons_self
  exact ⟨by omega, fun t ht => ⟨hlow t ht, hhigh t ht⟩⟩

namespace Outline

mutual

/-- A token of a kind covers one such token, and a node covers the tokens of its parts, from the
start of the first of them to the end of the last. -/
def Covers : Outline → List Token → Prop
  | .token k, ts => ∃ t, ts = [t] ∧ t.kind = k
  | .node _ m parts, ts => CoversAll parts ts ∧ ts.head?.map Token.start = some m.start ∧
      ts.getLast?.map Token.stop = some m.stop

def CoversAll : List Outline → List Token → Prop
  | [], ts => ts = []
  | o :: os, ts => ∃ us vs, ts = us ++ vs ∧ Covers o us ∧ CoversAll os vs

end

theorem covers_token {t : Token} {k : TokenKind} (h : t.kind = k) : Covers (.token k) [t] :=
  ⟨t, rfl, h⟩

theorem Covers.ne_nil {o : Outline} {ts : List Token} (h : Covers o ts) : ts ≠ [] := by
  rintro rfl
  cases o with
  | token k =>
    obtain ⟨t, ht, -⟩ := h
    cases ht
  | node before m parts => cases h.2.1

theorem coversAll_nil : CoversAll [] [] := rfl

theorem CoversAll.cons {o : Outline} {os : List Outline} {us vs : List Token} (h : Covers o us)
    (hos : CoversAll os vs) : CoversAll (o :: os) (us ++ vs) := ⟨us, vs, rfl, h, hos⟩

theorem CoversAll.token {t : Token} {k : TokenKind} (h : t.kind = k) {os : List Outline}
    {ts : List Token} (hos : CoversAll os ts) : CoversAll (.token k :: os) (t :: ts) :=
  .cons (covers_token h) hos

theorem Covers.singleton {o : Outline} {ts : List Token} (h : Covers o ts) : CoversAll [o] ts := by
  rw [← List.append_nil ts]
  exact .cons h coversAll_nil

theorem CoversAll.append {os os' : List Outline} {us vs : List Token} (h : CoversAll os us)
    (h' : CoversAll os' vs) : CoversAll (os ++ os') (us ++ vs) := by
  induction os generalizing us with
  | nil =>
    cases h
    exact h'
  | cons o os ih =>
    obtain ⟨us', us'', rfl, ho, hos⟩ := h
    rw [List.append_assoc]
    exact .cons ho (ih hos)

theorem CoversAll.ne_nil {o : Outline} {os : List Outline} {ts : List Token}
    (h : CoversAll (o :: os) ts) : ts ≠ [] := by
  obtain ⟨us, vs, rfl, ho, -⟩ := h
  exact List.append_ne_nil_of_left_ne_nil ho.ne_nil vs

theorem CoversAll.kinds_of {os : List Outline} {ts : List Token} (h : CoversAll os ts)
    (hparts : ∀ o ∈ os, ∀ ts, Covers o ts → o.kinds = ts.map Token.kind) :
    kindsAll os = ts.map Token.kind := by
  induction os generalizing ts with
  | nil =>
    cases h
    rfl
  | cons o os ih =>
    obtain ⟨us, vs, rfl, ho, hos⟩ := h
    obtain ⟨hpart, hparts⟩ := List.forall_mem_cons.1 hparts
    rw [kindsAll, hpart us ho, ih hos hparts, List.map_append]

theorem Covers.kinds {o : Outline} {ts : List Token} (h : Covers o ts) :
    o.kinds = ts.map Token.kind := by
  induction o using ind generalizing ts with
  | token k =>
    obtain ⟨t, rfl, rfl⟩ := h
    rfl
  | node before m parts ih => exact h.1.kinds_of fun o ho ts h => ih o ho h

theorem CoversAll.kinds {os : List Outline} {ts : List Token} (h : CoversAll os ts) :
    kindsAll os = ts.map Token.kind := h.kinds_of fun _ _ _ => Covers.kinds

def mark? : Outline → Option Mark
  | .token _ => none
  | .node _ m _ => some m

mutual

/-- Every node is as long as a text at least, the nodes that are its parts lie inside of it, and the
nodes that are parts of one node lie one behind the other. -/
def Spaced : Outline → Prop
  | .token _ => True
  | .node _ m parts => m.start < m.stop ∧
      (∀ k ∈ parts.filterMap mark?, m.start ≤ k.start ∧ k.stop ≤ m.stop) ∧ SpacedAll parts

def SpacedAll : List Outline → Prop
  | [] => True
  | o :: os => Spaced o ∧
      (∀ k ∈ o.mark?, ∀ k' ∈ os.filterMap mark?, k.stop ≤ k'.start) ∧ SpacedAll os

end

mutual

/-- Every node has a smaller identity than all nodes inside of it if it is numbered before its
parts, and otherwise a larger one. -/
def Ranked : Outline → Prop
  | .token _ => True
  | .node before m parts =>
      (∀ i ∈ idsAll parts, if before then m.id < i else i < m.id) ∧ RankedAll parts

def RankedAll : List Outline → Prop
  | [] => True
  | o :: os => Ranked o ∧ RankedAll os

end

theorem Covers.exists_tokens {o : Outline} {ts : List Token} (h : Covers o ts) :
    ∀ k ∈ o.mark?, ∃ t ∈ ts, ∃ t' ∈ ts, k.start = t.start ∧ k.stop = t'.stop := by
  cases o with
  | token k => exact fun _ hk => nomatch hk
  | node before m parts =>
    rintro _ ⟨⟩
    obtain ⟨-, hstart, hstop⟩ := h
    obtain ⟨t, ht, hstart⟩ := Option.map_eq_some_iff.1 hstart
    obtain ⟨t', ht', hstop⟩ := Option.map_eq_some_iff.1 hstop
    exact ⟨t, List.mem_of_mem_head? ht, t', List.mem_of_mem_getLast? ht', hstart.symm,
      hstop.symm⟩

theorem CoversAll.exists_tokens {os : List Outline} {ts : List Token} (h : CoversAll os ts) :
    ∀ k ∈ os.filterMap mark?, ∃ t ∈ ts, ∃ t' ∈ ts, k.start = t.start ∧ k.stop = t'.stop := by
  induction os generalizing ts with
  | nil => exact fun _ hk => nomatch hk
  | cons o os ih =>
    obtain ⟨us, vs, rfl, ho, hos⟩ := h
    intro k hk
    obtain ⟨o', ho', hmark⟩ := List.mem_filterMap.1 hk
    rcases List.mem_cons.1 ho' with rfl | ho'
    · obtain ⟨t, ht, t', ht', hspan⟩ := ho.exists_tokens k hmark
      exact ⟨t, List.mem_append_left vs ht, t', List.mem_append_left vs ht', hspan⟩
    · obtain ⟨t, ht, t', ht', hspan⟩ := ih hos k (List.mem_filterMap.2 ⟨o', ho', hmark⟩)
      exact ⟨t, List.mem_append_right us ht, t', List.mem_append_right us ht', hspan⟩

theorem CoversAll.spaced {os : List Outline} {ts : List Token} (h : CoversAll os ts)
    (hts : InSequence ts)
    (hparts : ∀ o ∈ os, ∀ ts, Covers o ts → InSequence ts → o.Spaced) : SpacedAll os := by
  induction os generalizing ts with
  | nil => trivial
  | cons o os ih =>
    obtain ⟨us, vs, rfl, ho, hos⟩ := h
    obtain ⟨hus, hvs, hcross⟩ := hts.append
    obtain ⟨hpart, hparts⟩ := List.forall_mem_cons.1 hparts
    refine ⟨hpart us ho hus, fun k hk k' hk' => ?_, ih hos hvs hparts⟩
    obtain ⟨-, -, t, ht, -, hstop⟩ := ho.exists_tokens k hk
    obtain ⟨t', ht', -, -, hstart, -⟩ := hos.exists_tokens k' hk'
    rw [hstop, hstart]
    exact hcross t ht t' ht'

theorem Covers.spaced {o : Outline} {ts : List Token} (h : Covers o ts) (hts : InSequence ts) :
    o.Spaced := by
  induction o using ind generalizing ts with
  | token k => trivial
  | node before m parts ih =>
    obtain ⟨hparts, hstart, hstop⟩ := h
    obtain ⟨hlt, hwithin⟩ := hts.within hstart hstop
    refine ⟨hlt, fun k hk => ?_, hparts.spaced hts fun o ho ts h hts => ih o ho h hts⟩
    obtain ⟨t, ht, t', ht', hs, he⟩ := hparts.exists_tokens k hk
    rw [hs, he]
    exact ⟨(hwithin t ht).1, (hwithin t' ht').2⟩

/-- A node that is as long as a text at least, and begins and ends where some tokens do. -/
def Spans (ts : List Token) (m : Mark) : Prop :=
  m.start < m.stop ∧ ∃ t ∈ ts, ∃ t' ∈ ts, m.start = t.start ∧ m.stop = t'.stop

theorem Spans.mono {ts us : List Token} {m : Mark} (h : Spans ts m) (hsub : ts ⊆ us) :
    Spans us m := by
  obtain ⟨hlt, t, ht, t', ht', hspan⟩ := h
  exact ⟨hlt, t, hsub ht, t', hsub ht', hspan⟩

theorem CoversAll.spans {os : List Outline} {ts : List Token} (h : CoversAll os ts)
    (hts : InSequence ts)
    (hparts : ∀ o ∈ os, ∀ ts, Covers o ts → InSequence ts → ∀ m ∈ o.marks, Spans ts m) :
    ∀ m ∈ marksAll os, Spans ts m := by
  induction os generalizing ts with
  | nil => exact fun _ hm => nomatch hm
  | cons o os ih =>
    obtain ⟨us, vs, rfl, ho, hos⟩ := h
    obtain ⟨hus, hvs, -⟩ := hts.append
    obtain ⟨hpart, hparts⟩ := List.forall_mem_cons.1 hparts
    refine List.forall_mem_append.2 ⟨fun m hm => ?_, fun m hm => ?_⟩
    · exact (hpart us ho hus m hm).mono (List.subset_append_left us vs)
    · exact (ih hos hvs hparts m hm).mono (List.subset_append_right us vs)

theorem Covers.spans {o : Outline} {ts : List Token} (h : Covers o ts) (hts : InSequence ts) :
    ∀ m ∈ o.marks, Spans ts m := by
  induction o using ind generalizing ts with
  | token k => exact fun _ hm => nomatch hm
  | node before m parts ih =>
    have hself : Spans ts m :=
      ⟨(hts.within h.2.1 h.2.2).1, h.exists_tokens m rfl⟩
    have hinner := h.1.spans hts fun o ho ts h hts => ih o ho h hts
    rw [marks]
    cases before with
    | true => exact List.forall_mem_cons.2 ⟨hself, hinner⟩
    | false => exact List.forall_mem_append.2 ⟨hinner, List.forall_mem_singleton.2 hself⟩

theorem rankedAll_of_ids {os : List Outline} (h : (idsAll os).Pairwise (· < ·))
    (hparts : ∀ o ∈ os, o.ids.Pairwise (· < ·) → o.Ranked) : RankedAll os := by
  induction os with
  | nil => trivial
  | cons o os ih =>
    obtain ⟨ho, hos, -⟩ := List.pairwise_append.1 h
    obtain ⟨hpart, hparts⟩ := List.forall_mem_cons.1 hparts
    exact ⟨hpart ho, ih hos hparts⟩

/-- Where identities increase in the order in which they are handed out, nodes are ranked. -/
theorem ranked_of_ids {o : Outline} (h : o.ids.Pairwise (· < ·)) : o.Ranked := by
  induction o using ind with
  | token k => trivial
  | node before m parts ih =>
    cases before with
    | true =>
      obtain ⟨hfirst, hparts⟩ := List.pairwise_cons.1 h
      exact ⟨hfirst, rankedAll_of_ids hparts ih⟩
    | false =>
      obtain ⟨hparts, -, hlast⟩ := List.pairwise_append.1 h
      exact ⟨fun i hi => hlast i hi m.id (List.mem_singleton_self _), rankedAll_of_ids hparts ih⟩

end Outline

end Asl
