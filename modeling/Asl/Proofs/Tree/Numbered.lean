import Asl.Proofs.Tree.Kinds

/-!
# Trees by their shape and their numbers

A tree is told by its shape and by the list of the identities of its nodes: two trees that are equal
but for their marks, and whose identities are the same in the same order, are equal but for their
offsets. For the identities can be handed out again to a shape, from the front of the list, and what
comes out is the tree with its identities and without its offsets.
-/
namespace Asl

def Mark.identity (m : Mark) : Mark := ⟨m.id, 0, 0⟩

open Mark (erased identity)

/-- A part of a tree that its shape and the identities at the front of a list tell. -/
def Numbered {α : Type} (shape known : α → α) (ids : α → List NodeId) (x : α) : Prop :=
  ∀ x' ks ks', shape x' = shape x → ids x' ++ ks' = ids x ++ ks → known x' = known x ∧ ks' = ks

/-- A computation that takes identities from the front of a list. -/
abbrev Supplied := StateM (List NodeId)

namespace Supplied

variable {α β : Type}

def next : Supplied Mark := modifyGet fun
  | [] => (.blank, [])
  | n :: ns => (⟨n, 0, 0⟩, ns)

/-- Some identities are taken, whatever stands behind them, and a value is given. -/
def Gives (x : Supplied α) (ns : List NodeId) (a : α) : Prop := ∀ ks, x.run (ns ++ ks) = (a, ks)

theorem gives_pure (a : α) : Gives (pure a) [] a := fun _ => rfl

theorem gives_next (m : Mark) : next.Gives [m.id] m.identity := fun _ => rfl

theorem Gives.bind {x : Supplied α} {f : α → Supplied β} {ns ns' : List NodeId} {a : α} {b : β}
    (h : x.Gives ns a) (hf : (f a).Gives ns' b) : (x >>= f).Gives (ns ++ ns') b := by
  intro ks
  rw [StateT.run_bind, List.append_assoc, h]
  exact hf ks

theorem Gives.map {x : Supplied α} {ns : List NodeId} {a : α} (f : α → β) (h : x.Gives ns a) :
    (f <$> x).Gives ns (f a) := by
  intro ks
  rw [StateT.run_map, h]
  rfl

theorem gives_mapM {number : α → Supplied α} {shape known : α → α} {ids : α → List NodeId}
    {xs : List α} (h : ∀ x ∈ xs, (number (shape x)).Gives (ids x) (known x)) :
    ((xs.map shape).mapM number).Gives (xs.flatMap ids) (xs.map known) := by
  induction xs with
  | nil => exact gives_pure []
  | cons x xs ih =>
    obtain ⟨hx, hxs⟩ := List.forall_mem_cons.1 h
    rw [List.map_cons, List.mapM_cons, List.flatMap_cons]
    exact hx.bind ((ih hxs).map (known x :: ·))

theorem gives_node (f : Mark → α) (m : Mark) :
    Gives (next >>= fun m => pure (f m)) [m.id] (f m.identity) := fun _ => rfl

end Supplied

open Supplied

def Ident.number (x : Ident) : Supplied Ident := do return ⟨← next, x.name⟩

mutual

def Expr.number : Expr → Supplied Expr
  | .literal _ value => do return .literal (← next) value
  | .name _ x => do
    let x ← x.number
    return .name (← next) x
  | .element _ base index => do
    let base ← base.number
    let index ← index.number
    return .element (← next) base index
  | .call _ callee args => do
    let callee ← callee.number
    let args ← Expr.numberAll args
    return .call (← next) callee args
  | .paren _ inner => do
    let inner ← inner.number
    return .paren (← next) inner
  | .unary _ op operand => do
    let operand ← operand.number
    return .unary (← next) op operand
  | .binary _ op lhs rhs => do
    let lhs ← lhs.number
    let rhs ← rhs.number
    return .binary (← next) op lhs rhs
  | .max _ args => do
    let args ← Expr.numberAll args
    return .max (← next) args

def Expr.numberAll : List Expr → Supplied (List Expr)
  | [] => return []
  | e :: es => return (← e.number) :: (← Expr.numberAll es)

end

theorem Expr.numberAll_eq_mapM (es : List Expr) : numberAll es = es.mapM number := by
  induction es with
  | nil => rfl
  | cons e es ih => rw [numberAll, ih, List.mapM_cons]

def Target.number : Target → Supplied Target
  | .name _ x => do
    let x ← x.number
    return .name (← next) x
  | .element _ base index => do
    let base ← base.number
    let index ← index.number
    return .element (← next) base index

mutual

def Stmt.number : Stmt → Supplied Stmt
  | .assign _ target value => do
    let target ← target.number
    let value ← value.number
    return .assign (← next) target value
  | .ifThen _ condition body => do
    let condition ← condition.number
    let body ← Stmt.numberAll body
    return .ifThen (← next) condition body
  | .ifElse _ condition body otherwise => do
    let condition ← condition.number
    let body ← Stmt.numberAll body
    let otherwise ← Stmt.numberAll otherwise
    return .ifElse (← next) condition body otherwise
  | .while _ condition body => do
    let condition ← condition.number
    let body ← Stmt.numberAll body
    return .while (← next) condition body
  | .for _ control range body => do
    let control ← control.number
    let range ← range.mapM Expr.number
    let body ← Stmt.numberAll body
    return .for (← next) control range body
  | .call _ callee args => do
    let callee ← callee.number
    let args ← args.mapM Expr.number
    return .call (← next) callee args
  | .read _ target => do
    let target ← target.number
    return .read (← next) target
  | .write _ value => do
    let value ← value.number
    return .write (← next) value
  | .writeText _ raw => do return .writeText (← next) raw
  | .ret _ none => do return .ret (← next) none
  | .ret _ (some value) => do
    let value ← value.number
    return .ret (← next) (some value)

def Stmt.numberAll : List Stmt → Supplied (List Stmt)
  | [] => return []
  | s :: ss => return (← s.number) :: (← Stmt.numberAll ss)

end

theorem Stmt.numberAll_eq_mapM (ss : List Stmt) : numberAll ss = ss.mapM number := by
  induction ss with
  | nil => rfl
  | cons s ss ih => rw [numberAll, ih, List.mapM_cons]

def TypeNote.number (t : TypeNote) : Supplied TypeNote := do return ⟨← next, t.spec⟩

def Parameter.number (q : Parameter) : Supplied Parameter := do
  return ⟨← q.name.number, ← q.type.number⟩

def Declaration.number (d : Declaration) : Supplied Declaration := do
  return ⟨← d.names.mapM Ident.number, ← d.type.number⟩

/-- A function gets its identity before its parts do. -/
def Function.number (f : Function) : Supplied Function := do
  let mark ← next
  let name ← f.name.number
  let params ← f.params.mapM Parameter.number
  let result ← f.result.mapM TypeNote.number
  let declarations ← f.declarations.mapM Declaration.number
  let body ← f.body.mapM Stmt.number
  return { mark, name, params, result, declarations, body }

def Program.number (p : Program) : Supplied Program := do
  return ⟨(← next).id, ← p.functions.mapM Function.number⟩

theorem Ident.gives_number (x : Ident) :
    (x.mapMark erased).number.Gives [x.mark.id] (x.mapMark identity) :=
  gives_node (Ident.mk · x.name) x.mark

theorem TypeNote.gives_number (t : TypeNote) :
    (t.mapMark erased).number.Gives [t.mark.id] (t.mapMark identity) :=
  gives_node (TypeNote.mk · t.spec) t.mark

namespace Expr

theorem gives_numberAll {es : List Expr}
    (h : ∀ e ∈ es, (e.mapMark erased).number.Gives e.ids (e.mapMark identity)) :
    (numberAll (mapMarkAll erased es)).Gives (idsAll es) (mapMarkAll identity es) := by
  rw [numberAll_eq_mapM, mapMarkAll_eq_map, mapMarkAll_eq_map, idsAll_eq_flatMap]
  exact gives_mapM h

theorem gives_number (e : Expr) :
    (e.mapMark erased).number.Gives e.ids (e.mapMark identity) := by
  induction e using Expr.ind with
  | literal m v => exact gives_node (literal · v) m
  | name m x => exact x.gives_number.bind (gives_node (name · _) m)
  | element m base index ih => exact base.gives_number.bind (ih.bind (gives_node (element · _ _) m))
  | call m callee args ih =>
    exact callee.gives_number.bind ((gives_numberAll ih).bind (gives_node (call · _ _) m))
  | paren m inner ih => exact ih.bind (gives_node (paren · _) m)
  | unary m op operand ih => exact ih.bind (gives_node (unary · op _) m)
  | binary m op lhs rhs ihl ihr =>
    rw [ids, List.append_assoc]
    exact ihl.bind (ihr.bind (gives_node (binary · op _ _) m))
  | max m args ih => exact (gives_numberAll ih).bind (gives_node (max · _) m)

theorem gives_mapM_number (es : List Expr) :
    ((es.map (mapMark erased)).mapM number).Gives (idsAll es) (es.map (mapMark identity)) := by
  rw [idsAll_eq_flatMap]
  exact gives_mapM fun e _ => e.gives_number

end Expr

theorem Target.gives_number (x : Target) :
    (x.mapMark erased).number.Gives x.ids (x.mapMark identity) := by
  cases x with
  | name m x => exact x.gives_number.bind (gives_node (name · _) m)
  | element m base index =>
    exact base.gives_number.bind (index.gives_number.bind (gives_node (element · _ _) m))

namespace Stmt

theorem gives_numberAll {ss : List Stmt}
    (h : ∀ s ∈ ss, (s.mapMark erased).number.Gives s.ids (s.mapMark identity)) :
    (numberAll (mapMarkAll erased ss)).Gives (idsAll ss) (mapMarkAll identity ss) := by
  rw [numberAll_eq_mapM, mapMarkAll_eq_map, mapMarkAll_eq_map, idsAll_eq_flatMap]
  exact gives_mapM h

theorem gives_number (s : Stmt) :
    (s.mapMark erased).number.Gives s.ids (s.mapMark identity) := by
  induction s using Stmt.ind with
  | assign m target value =>
    rw [ids, List.append_assoc]
    exact target.gives_number.bind (value.gives_number.bind (gives_node (assign · _ _) m))
  | ifThen m condition body ih =>
    rw [ids, List.append_assoc]
    exact condition.gives_number.bind ((gives_numberAll ih).bind (gives_node (ifThen · _ _) m))
  | ifElse m condition body otherwise ihb iho =>
    rw [ids, List.append_assoc, List.append_assoc]
    exact condition.gives_number.bind ((gives_numberAll ihb).bind ((gives_numberAll iho).bind
      (gives_node (ifElse · _ _ _) m)))
  | while_ m condition body ih =>
    rw [ids, List.append_assoc]
    exact condition.gives_number.bind ((gives_numberAll ih).bind (gives_node («while» · _ _) m))
  | for_ m control range body ih =>
    rw [ids, List.append_assoc]
    exact control.gives_number.bind ((Expr.gives_mapM_number range).bind
      ((gives_numberAll ih).bind (gives_node («for» · _ _ _) m)))
  | call m callee args =>
    exact callee.gives_number.bind ((Expr.gives_mapM_number args).bind
      (gives_node (call · _ _) m))
  | read m target => exact target.gives_number.bind (gives_node (read · _) m)
  | write m value => exact value.gives_number.bind (gives_node (write · _) m)
  | writeText m raw => exact gives_node (writeText · raw) m
  | ret m value =>
    cases value with
    | none => exact gives_node (ret · none) m
    | some value => exact value.gives_number.bind (gives_node (ret · (some _)) m)

end Stmt

theorem Parameter.gives_number (q : Parameter) :
    (q.mapMark erased).number.Gives q.ids (q.mapMark identity) :=
  q.name.gives_number.bind (q.type.gives_number.map (Parameter.mk _))

theorem Declaration.gives_number (d : Declaration) :
    (d.mapMark erased).number.Gives d.ids (d.mapMark identity) := by
  rw [ids, List.map_eq_flatMap]
  exact (gives_mapM fun x _ => x.gives_number).bind (d.type.gives_number.map (Declaration.mk _))

theorem TypeNote.gives_mapM_number (r : Option TypeNote) :
    ((r.map (mapMark erased)).mapM number).Gives (r.map (·.mark.id)).toList
      (r.map (mapMark identity)) := by
  cases r with
  | none => exact gives_pure none
  | some t => exact t.gives_number.map some

theorem Function.gives_number (f : Function) :
    (f.mapMark erased).number.Gives f.ids (f.mapMark identity) := by
  simp only [ids, Stmt.idsAll_eq_flatMap, List.append_assoc, List.cons_append]
  exact (gives_next f.mark).bind <| f.name.gives_number.bind <|
    (gives_mapM fun q _ => q.gives_number).bind <|
    (TypeNote.gives_mapM_number f.result).bind <|
    (gives_mapM fun d _ => d.gives_number).bind <|
    (gives_mapM fun s _ => s.gives_number).map _

theorem Program.gives_number (p : Program) : p.bare.number.Gives p.ids (p.mapMark identity) :=
  (gives_next ⟨p.id, 0, 0⟩).bind
    ((gives_mapM fun f (_ : f ∈ p.functions) => f.gives_number).map (Program.mk _))

theorem Program.numbered (p : Program) : Numbered bare (mapMark identity) ids p := by
  intro p' ks ks' hshape hids
  have hgives := p'.gives_number ks'
  rw [hshape, hids, p.gives_number ks] at hgives
  injection hgives with hknown hks
  exact ⟨hknown.symm, hks.symm⟩

theorem Program.mapMark_identity {p p' : Program} {n n' : Nat} (h : p'.bare = p.bare)
    (hids : p.ids = List.range n) (hids' : p'.ids = List.range n') :
    p'.mapMark identity = p.mapMark identity := by
  rcases Nat.le_total n n' with hle | hle
  · obtain ⟨k, rfl⟩ := Nat.exists_eq_add_of_le hle
    refine (p.numbered p' ((List.range k).map (n + ·)) [] h ?_).1
    rw [hids, hids', List.append_nil, List.range_add]
  · obtain ⟨k, rfl⟩ := Nat.exists_eq_add_of_le hle
    refine (p.numbered p' [] ((List.range k).map (n' + ·)) h ?_).1
    rw [hids, hids', List.append_nil, List.range_add]

end Asl
