import Asl.Proofs.Tree.Declared
import Asl.Proofs.Tree.Kinds

/-!
# Trees with a hole

A tree with a hole stands for all trees that differ in one expression. The hole may be at any place
where an expression can stand. The nodes of a tree that is filled are those on the path to the hole,
which enclose it, those aside of the path, and those of the expression that fills the hole.
-/
open scoped List

namespace Asl

inductive Expr.Hole
  | here
  | element (mark : Mark) (base : Ident) (index : Hole)
  | call (mark : Mark) (callee : Ident) (before : List Expr) (argument : Hole)
      (after : List Expr)
  | paren (mark : Mark) (inner : Hole)
  | unary (mark : Mark) (op : UnaryOp) (operand : Hole)
  | left (mark : Mark) (op : BinaryOp) (lhs : Hole) (rhs : Expr)
  | right (mark : Mark) (op : BinaryOp) (lhs : Expr) (rhs : Hole)
  | max (mark : Mark) (before : List Expr) (argument : Hole) (after : List Expr)

namespace Expr.Hole

def fill : Hole → Expr → Expr
  | .here, e => e
  | .element m base index, e => .element m base (index.fill e)
  | .call m callee before argument after, e =>
      .call m callee (before ++ argument.fill e :: after)
  | .paren m inner, e => .paren m (inner.fill e)
  | .unary m op operand, e => .unary m op (operand.fill e)
  | .left m op lhs rhs, e => .binary m op (lhs.fill e) rhs
  | .right m op lhs rhs, e => .binary m op lhs (rhs.fill e)
  | .max m before argument after, e => .max m (before ++ argument.fill e :: after)

/-- The indices that the hole is in, or is itself, each behind the base of its element. -/
def indices : Hole → List (Ident × Hole)
  | .here => []
  | .element _ base index => (base, index) :: index.indices
  | .call _ _ _ inner _ | .paren _ inner | .unary _ _ inner | .left _ _ inner _
  | .right _ _ _ inner | .max _ _ inner _ => inner.indices

/-- The nodes that enclose the hole. -/
def path : Hole → List NodeId
  | .here => []
  | .element m _ inner | .call m _ _ inner _ | .paren m inner | .unary m _ inner
  | .left m _ inner _ | .right m _ _ inner | .max m _ inner _ => m.id :: inner.path

/-- The nodes that stand beside the hole. -/
def aside : Hole → List NodeId
  | .here => []
  | .element _ base index => base.mark.id :: index.aside
  | .call _ callee before argument after =>
      callee.mark.id :: (Expr.idsAll before ++ Expr.idsAll after ++ argument.aside)
  | .paren _ inner | .unary _ _ inner => inner.aside
  | .left _ _ lhs rhs => rhs.ids ++ lhs.aside
  | .right _ _ lhs rhs => lhs.ids ++ rhs.aside
  | .max _ before argument after =>
      Expr.idsAll before ++ Expr.idsAll after ++ argument.aside

end Expr.Hole

inductive Stmt.Hole
  | assignIndex (mark place : Mark) (base : Ident) (index : Expr.Hole) (value : Expr)
  | assignValue (mark : Mark) (target : Target) (value : Expr.Hole)
  | ifCondition (mark : Mark) (condition : Expr.Hole) (body : List Stmt)
  | ifBody (mark : Mark) (condition : Expr) (before : List Stmt) (inner : Hole)
      (after : List Stmt)
  | elseCondition (mark : Mark) (condition : Expr.Hole) (body otherwise : List Stmt)
  | elseBody (mark : Mark) (condition : Expr) (before : List Stmt) (inner : Hole)
      (after otherwise : List Stmt)
  | elseOtherwise (mark : Mark) (condition : Expr) (body before : List Stmt) (inner : Hole)
      (after : List Stmt)
  | whileCondition (mark : Mark) (condition : Expr.Hole) (body : List Stmt)
  | whileBody (mark : Mark) (condition : Expr) (before : List Stmt) (inner : Hole)
      (after : List Stmt)
  | forRange (mark : Mark) (control : Ident) (before : List Expr) (bound : Expr.Hole)
      (after : List Expr) (body : List Stmt)
  | forBody (mark : Mark) (control : Ident) (range : List Expr) (before : List Stmt)
      (inner : Hole) (after : List Stmt)
  | callArgument (mark : Mark) (callee : Ident) (before : List Expr) (argument : Expr.Hole)
      (after : List Expr)
  | readIndex (mark place : Mark) (base : Ident) (index : Expr.Hole)
  | writeValue (mark : Mark) (value : Expr.Hole)
  | retValue (mark : Mark) (value : Expr.Hole)

namespace Stmt.Hole

def fill : Hole → Expr → Stmt
  | .assignIndex m place base index value, e =>
      .assign m (.element place base (index.fill e)) value
  | .assignValue m target value, e => .assign m target (value.fill e)
  | .ifCondition m condition body, e => .ifThen m (condition.fill e) body
  | .ifBody m condition before inner after, e =>
      .ifThen m condition (before ++ inner.fill e :: after)
  | .elseCondition m condition body otherwise, e => .ifElse m (condition.fill e) body otherwise
  | .elseBody m condition before inner after otherwise, e =>
      .ifElse m condition (before ++ inner.fill e :: after) otherwise
  | .elseOtherwise m condition body before inner after, e =>
      .ifElse m condition body (before ++ inner.fill e :: after)
  | .whileCondition m condition body, e => .while m (condition.fill e) body
  | .whileBody m condition before inner after, e =>
      .while m condition (before ++ inner.fill e :: after)
  | .forRange m control before bound after body, e =>
      .for m control (before ++ bound.fill e :: after) body
  | .forBody m control range before inner after, e =>
      .for m control range (before ++ inner.fill e :: after)
  | .callArgument m callee before argument after, e =>
      .call m callee (before ++ argument.fill e :: after)
  | .readIndex m place base index, e => .read m (.element place base (index.fill e))
  | .writeValue m value, e => .write m (value.fill e)
  | .retValue m value, e => .ret m (some (value.fill e))

def indices : Hole → List (Ident × Expr.Hole)
  | .assignIndex _ _ base index _ | .readIndex _ _ base index => (base, index) :: index.indices
  | .assignValue _ _ c | .ifCondition _ c _ | .elseCondition _ c _ _ | .whileCondition _ c _
  | .forRange _ _ _ c _ _ | .callArgument _ _ _ c _ | .writeValue _ c | .retValue _ c => c.indices
  | .ifBody _ _ _ inner _ | .elseBody _ _ _ inner _ _ | .elseOtherwise _ _ _ _ inner _
  | .whileBody _ _ _ inner _ | .forBody _ _ _ _ inner _ => inner.indices

def path : Hole → List NodeId
  | .assignIndex m place _ index _ | .readIndex m place _ index => m.id :: place.id :: index.path
  | .assignValue m _ c | .ifCondition m c _ | .elseCondition m c _ _ | .whileCondition m c _
  | .forRange m _ _ c _ _ | .callArgument m _ _ c _ | .writeValue m c | .retValue m c =>
      m.id :: c.path
  | .ifBody m _ _ inner _ | .elseBody m _ _ inner _ _ | .elseOtherwise m _ _ _ inner _
  | .whileBody m _ _ inner _ | .forBody m _ _ _ inner _ => m.id :: inner.path

def aside : Hole → List NodeId
  | .assignIndex _ _ base index value => base.mark.id :: (value.ids ++ index.aside)
  | .assignValue _ target value => target.ids ++ value.aside
  | .ifCondition _ condition body | .whileCondition _ condition body =>
      Stmt.idsAll body ++ condition.aside
  | .ifBody _ condition before inner after | .whileBody _ condition before inner after =>
      condition.ids ++ Stmt.idsAll before ++ Stmt.idsAll after ++ inner.aside
  | .elseCondition _ condition body otherwise =>
      Stmt.idsAll body ++ Stmt.idsAll otherwise ++ condition.aside
  | .elseBody _ condition before inner after otherwise =>
      condition.ids ++ Stmt.idsAll before ++ Stmt.idsAll after ++ Stmt.idsAll otherwise ++
        inner.aside
  | .elseOtherwise _ condition body before inner after =>
      condition.ids ++ Stmt.idsAll body ++ Stmt.idsAll before ++ Stmt.idsAll after ++ inner.aside
  | .forRange _ control before bound after body =>
      control.mark.id :: (Expr.idsAll before ++ Expr.idsAll after ++ Stmt.idsAll body ++
        bound.aside)
  | .forBody _ control range before inner after =>
      control.mark.id :: (Expr.idsAll range ++ Stmt.idsAll before ++ Stmt.idsAll after ++
        inner.aside)
  | .callArgument _ callee before argument after =>
      callee.mark.id :: (Expr.idsAll before ++ Expr.idsAll after ++ argument.aside)
  | .readIndex _ _ base index => base.mark.id :: index.aside
  | .writeValue _ value | .retValue _ value => value.aside

end Stmt.Hole

/-- A program with a hole for an expression in the body of a function, of which the rest is given by
`function`. -/
structure Program.Hole where
  id : NodeId
  before : List Function
  function : Function
  front : List Stmt
  inner : Stmt.Hole
  back : List Stmt
  after : List Function

namespace Program.Hole

def filled (c : Hole) (e : Expr) : Function :=
  { c.function with body := c.front ++ c.inner.fill e :: c.back }

def fill (c : Hole) (e : Expr) : Program := ⟨c.id, c.before ++ c.filled e :: c.after⟩

def path (c : Hole) : List NodeId := c.inner.path

/-- The nodes around the hole that are not on the path to it. -/
def aside (c : Hole) : List NodeId :=
  c.id :: (c.before.flatMap Function.ids ++ c.after.flatMap Function.ids ++ c.function.header.ids ++
    Stmt.idsAll c.front ++ Stmt.idsAll c.back ++ c.inner.aside)

end Program.Hole

theorem Expr.idsAll_append (es fs : List Expr) :
    Expr.idsAll (es ++ fs) = Expr.idsAll es ++ Expr.idsAll fs := by
  simp only [Expr.idsAll_eq_flatMap, List.flatMap_append]

theorem Stmt.idsAll_append (ss ts : List Stmt) :
    Stmt.idsAll (ss ++ ts) = Stmt.idsAll ss ++ Stmt.idsAll ts := by
  simp only [Stmt.idsAll_eq_flatMap, List.flatMap_append]

theorem Expr.Hole.ids_fill (c : Expr.Hole) (e : Expr) :
    (c.fill e).ids ~ c.path ++ c.aside ++ e.ids := by
  rw [List.perm_iff_count]
  intro n
  induction c with
  | here => rfl
  | element m base index ih =>
    simp only [List.count_append] at ih
    simp only [fill, path, aside, Expr.ids, List.count_append, List.count_cons, List.count_nil, ih]
    omega
  | call m callee before argument after ih =>
    simp only [List.count_append] at ih
    simp only [fill, path, aside, Expr.ids, Expr.idsAll_append, Expr.idsAll, List.count_append,
      List.count_cons, List.count_nil, ih]
    omega
  | paren m inner ih =>
    simp only [List.count_append] at ih
    simp only [fill, path, aside, Expr.ids, List.count_append, List.count_cons, List.count_nil, ih]
    omega
  | unary m op operand ih =>
    simp only [List.count_append] at ih
    simp only [fill, path, aside, Expr.ids, List.count_append, List.count_cons, List.count_nil, ih]
    omega
  | left m op lhs rhs ih =>
    simp only [List.count_append] at ih
    simp only [fill, path, aside, Expr.ids, List.count_append, List.count_cons, List.count_nil, ih]
    omega
  | right m op lhs rhs ih =>
    simp only [List.count_append] at ih
    simp only [fill, path, aside, Expr.ids, List.count_append, List.count_cons, List.count_nil, ih]
    omega
  | max m before argument after ih =>
    simp only [List.count_append] at ih
    simp only [fill, path, aside, Expr.ids, Expr.idsAll_append, Expr.idsAll, List.count_append,
      List.count_cons, List.count_nil, ih]
    omega

theorem Stmt.Hole.ids_fill (c : Stmt.Hole) (e : Expr) :
    (c.fill e).ids ~ c.path ++ c.aside ++ e.ids := by
  rw [List.perm_iff_count]
  intro n
  have hexpr : ∀ d : Expr.Hole, (d.fill e).ids.count n =
      d.path.count n + d.aside.count n + e.ids.count n := by
    intro d
    rw [(d.ids_fill e).count_eq, List.count_append, List.count_append]
  induction c <;>
    simp only [fill, path, aside, Stmt.ids, Target.ids, Expr.idsAll_append, Expr.idsAll,
      Stmt.idsAll_append, Stmt.idsAll, List.count_append, List.count_cons, List.count_nil,
      hexpr] at * <;>
    omega

theorem Program.Hole.ids_fill (c : Program.Hole) (e : Expr) :
    (c.fill e).ids ~ c.path ++ c.aside ++ e.ids := by
  rw [List.perm_iff_count]
  intro n
  have hinner := (c.inner.ids_fill e).count_eq n
  rw [List.count_append, List.count_append] at hinner
  simp only [fill, filled, Function.header, path, aside, Program.ids, Function.ids,
    Stmt.idsAll_append, Stmt.idsAll, List.flatMap_append, List.flatMap_cons, List.count_append,
    List.count_cons, List.count_nil, hinner]
  omega

theorem Expr.exists_hole_all {x : Expr} {es : List Expr}
    (ih : ∀ e ∈ es, x ∈ e.parts → ∃ c : Expr.Hole, c.fill x = e) (h : x ∈ Expr.partsAll es) :
    ∃ before after, ∃ c : Expr.Hole, before ++ c.fill x :: after = es := by
  rw [Expr.partsAll_eq_flatMap] at h
  obtain ⟨e, he, hx⟩ := List.mem_flatMap.1 h
  obtain ⟨before, after, rfl⟩ := List.append_of_mem he
  obtain ⟨c, rfl⟩ := ih _ he hx
  exact ⟨before, after, c, rfl⟩

theorem Expr.exists_hole {x e : Expr} (h : x ∈ e.parts) : ∃ c : Expr.Hole, c.fill x = e := by
  induction e using Expr.ind with
  | literal m v => exact ⟨.here, List.mem_singleton.1 h⟩
  | name m y => exact ⟨.here, List.mem_singleton.1 h⟩
  | element m base index ih =>
    rcases List.mem_cons.1 h with rfl | h
    · exact ⟨.here, rfl⟩
    · obtain ⟨c, rfl⟩ := ih h
      exact ⟨.element m base c, rfl⟩
  | call m callee args ih =>
    rcases List.mem_cons.1 h with rfl | h
    · exact ⟨.here, rfl⟩
    · obtain ⟨before, after, c, rfl⟩ := Expr.exists_hole_all ih h
      exact ⟨.call m callee before c after, rfl⟩
  | paren m inner ih =>
    rcases List.mem_cons.1 h with rfl | h
    · exact ⟨.here, rfl⟩
    · obtain ⟨c, rfl⟩ := ih h
      exact ⟨.paren m c, rfl⟩
  | unary m op operand ih =>
    rcases List.mem_cons.1 h with rfl | h
    · exact ⟨.here, rfl⟩
    · obtain ⟨c, rfl⟩ := ih h
      exact ⟨.unary m op c, rfl⟩
  | binary m op lhs rhs ihl ihr =>
    rcases List.mem_cons.1 h with rfl | h
    · exact ⟨.here, rfl⟩
    · rcases List.mem_append.1 h with h | h
      · obtain ⟨c, rfl⟩ := ihl h
        exact ⟨.left m op c rhs, rfl⟩
      · obtain ⟨c, rfl⟩ := ihr h
        exact ⟨.right m op lhs c, rfl⟩
  | max m args ih =>
    rcases List.mem_cons.1 h with rfl | h
    · exact ⟨.here, rfl⟩
    · obtain ⟨before, after, c, rfl⟩ := Expr.exists_hole_all ih h
      exact ⟨.max m before c after, rfl⟩

theorem Expr.exists_hole_list {x : Expr} {es : List Expr} (h : x ∈ Expr.partsAll es) :
    ∃ before after, ∃ c : Expr.Hole, before ++ c.fill x :: after = es :=
  Expr.exists_hole_all (fun _ _ => Expr.exists_hole) h

theorem Stmt.exists_hole_all {x : Expr} {ss : List Stmt}
    (ih : ∀ s ∈ ss, x ∈ s.exprs → ∃ c : Stmt.Hole, c.fill x = s) (h : x ∈ Stmt.exprsAll ss) :
    ∃ before after, ∃ c : Stmt.Hole, before ++ c.fill x :: after = ss := by
  rw [Stmt.exprsAll_eq_flatMap] at h
  obtain ⟨s, hs, hx⟩ := List.mem_flatMap.1 h
  obtain ⟨before, after, rfl⟩ := List.append_of_mem hs
  obtain ⟨c, rfl⟩ := ih _ hs hx
  exact ⟨before, after, c, rfl⟩

theorem Stmt.exists_hole {x : Expr} {s : Stmt} (h : x ∈ s.exprs) :
    ∃ c : Stmt.Hole, c.fill x = s := by
  induction s using Stmt.ind with
  | assign m target value =>
    rcases List.mem_append.1 h with h | h
    · cases target with
      | name _ _ => cases h
      | element place base index =>
        obtain ⟨c, rfl⟩ := Expr.exists_hole h
        exact ⟨.assignIndex m place base c value, rfl⟩
    · obtain ⟨c, rfl⟩ := Expr.exists_hole h
      exact ⟨.assignValue m target c, rfl⟩
  | ifThen m condition body ih =>
    rcases List.mem_append.1 h with h | h
    · obtain ⟨c, rfl⟩ := Expr.exists_hole h
      exact ⟨.ifCondition m c body, rfl⟩
    · obtain ⟨before, after, c, rfl⟩ := Stmt.exists_hole_all ih h
      exact ⟨.ifBody m condition before c after, rfl⟩
  | ifElse m condition body otherwise ihb iho =>
    rcases List.mem_append.1 h with h | h
    · obtain ⟨c, rfl⟩ := Expr.exists_hole h
      exact ⟨.elseCondition m c body otherwise, rfl⟩
    · rcases List.mem_append.1 h with h | h
      · obtain ⟨before, after, c, rfl⟩ := Stmt.exists_hole_all ihb h
        exact ⟨.elseBody m condition before c after otherwise, rfl⟩
      · obtain ⟨before, after, c, rfl⟩ := Stmt.exists_hole_all iho h
        exact ⟨.elseOtherwise m condition body before c after, rfl⟩
  | while_ m condition body ih =>
    rcases List.mem_append.1 h with h | h
    · obtain ⟨c, rfl⟩ := Expr.exists_hole h
      exact ⟨.whileCondition m c body, rfl⟩
    · obtain ⟨before, after, c, rfl⟩ := Stmt.exists_hole_all ih h
      exact ⟨.whileBody m condition before c after, rfl⟩
  | for_ m control range body ih =>
    rcases List.mem_append.1 h with h | h
    · obtain ⟨before, after, c, rfl⟩ := Expr.exists_hole_list h
      exact ⟨.forRange m control before c after body, rfl⟩
    · obtain ⟨before, after, c, rfl⟩ := Stmt.exists_hole_all ih h
      exact ⟨.forBody m control range before c after, rfl⟩
  | call m callee args =>
    obtain ⟨before, after, c, rfl⟩ := Expr.exists_hole_list h
    exact ⟨.callArgument m callee before c after, rfl⟩
  | read m target =>
    cases target with
    | name _ _ => cases h
    | element place base index =>
      obtain ⟨c, rfl⟩ := Expr.exists_hole h
      exact ⟨.readIndex m place base c, rfl⟩
  | write m value =>
    obtain ⟨c, rfl⟩ := Expr.exists_hole h
    exact ⟨.writeValue m c, rfl⟩
  | writeText m raw => cases h
  | ret m value =>
    cases value with
    | none => cases h
    | some value =>
      obtain ⟨c, rfl⟩ := Expr.exists_hole h
      exact ⟨.retValue m c, rfl⟩

theorem Program.exists_hole {x : Expr} {p : Program} (h : x ∈ p.exprs) :
    ∃ c : Program.Hole, c.fill x = p := by
  obtain ⟨id, functions⟩ := p
  obtain ⟨f, hf, hx⟩ := List.mem_flatMap.1 h
  obtain ⟨before, after, rfl⟩ := List.append_of_mem hf
  obtain ⟨front, back, c, hbody⟩ := Stmt.exists_hole_all (fun _ _ => Stmt.exists_hole) hx
  refine ⟨⟨id, before, f, front, c, back, after⟩, ?_⟩
  simp only [Program.Hole.fill, Program.Hole.filled, hbody]

end Asl
