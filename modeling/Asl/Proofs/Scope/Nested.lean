import Asl.Scope.Table
import Mathlib.Data.List.Basic

/-!
# Scopes as nested ordered maps

A table of scopes keeps the bindings of a scope in a map and the names beside it in a list, and may
have one scope among the active ones many times. What it answers is what a nest of lists answers, in
which a scope is a list of pairs: declaring appends a pair, or replaces what the name was bound to
where it stands, and a name means its binding in the innermost active list that has one.
-/
namespace Asl

/-- Names with what they are bound to, in the order of the first declarations. -/
abbrev Bindings := List (String × Binding)

namespace Bindings

/-- A name that is declared again keeps its place. -/
def declare (x : String) (b : Binding) : Bindings → Bindings
  | [] => [(x, b)]
  | (y, c) :: rest => if y = x then (x, b) :: rest else (y, c) :: declare x b rest

def listed (order : List String) (g : String → Option Binding) : Bindings :=
  order.filterMap fun x => (g x).map fun b => (x, b)

section

variable {order : List String} {g : String → Option Binding} {x y : String} {b : Binding}

theorem listed_cons (y : String) (order : List String) (g : String → Option Binding) :
    listed (y :: order) g =
      ((g y).map fun b => (y, b)).toList ++ listed order g := by
  rw [listed, listed, List.filterMap_cons]
  cases g y <;> rfl

theorem listed_append (order more : List String) (g : String → Option Binding) :
    listed (order ++ more) g = listed order g ++ listed more g := List.filterMap_append

theorem listed_congr {g' : String → Option Binding} (h : ∀ y ∈ order, g y = g' y) :
    listed order g = listed order g' :=
  List.filterMap_congr fun y hy => by rw [h y hy]

theorem lookup_listed (order : List String) (g : String → Option Binding) (x : String) :
    (listed order g).lookup x = if x ∈ order then g x else none := by
  induction order with
  | nil => rfl
  | cons y order ih =>
    rw [listed_cons]
    cases hy : g y with
    | none =>
      by_cases hx : x = y
      · subst hx
        simp [ih, hy]
      · simp [ih, hx]
    | some b =>
      by_cases hx : x = y
      · subst hx
        simp [hy]
      · have hne : (x == y) = false := by simpa using hx
        simp [ih, hx, List.lookup_cons, hne]

theorem map_fst_listed (h : ∀ y ∈ order, (g y).isSome) : (listed order g).map Prod.fst = order := by
  induction order with
  | nil => rfl
  | cons y order ih =>
    obtain ⟨hy, horder⟩ := List.forall_mem_cons.1 h
    obtain ⟨b, hb⟩ := Option.isSome_iff_exists.1 hy
    rw [listed_cons, hb, List.map_append, ih horder]
    rfl

theorem declare_of_not_mem {l : Bindings} (h : x ∉ l.map Prod.fst) :
    declare x b l = l ++ [(x, b)] := by
  induction l with
  | nil => rfl
  | cons p l ih =>
    obtain ⟨y, c⟩ := p
    rw [List.map_cons, List.mem_cons, not_or] at h
    rw [declare, if_neg fun hy => h.1 hy.symm, ih h.2]
    rfl

theorem declare_listed_of_mem (hnodup : order.Nodup) (hx : x ∈ order) (hg : (g x).isSome) :
    declare x b (listed order g) = listed order fun y => if x = y then some b else g y := by
  induction order with
  | nil => cases hx
  | cons y order ih =>
    obtain ⟨hnew, hnodup⟩ := List.nodup_cons.1 hnodup
    rw [listed_cons, listed_cons]
    by_cases hxy : x = y
    · subst hxy
      obtain ⟨c, hc⟩ := Option.isSome_iff_exists.1 hg
      have hrest : listed order g = listed order fun y => if x = y then some b else g y :=
        listed_congr fun z hz => (if_neg (ne_of_mem_of_not_mem hz hnew).symm).symm
      rw [hc, if_pos rfl, ← hrest]
      simp [declare]
    · have hmem := (List.mem_cons.1 hx).resolve_left hxy
      rw [if_neg hxy, ← ih hnodup hmem]
      cases g y with
      | none => rfl
      | some c => simp [declare, Ne.symm hxy]

end

end Bindings

namespace Scope

/-- A scope lists what it binds. -/
def Orderly (sc : Scope) : Prop := ∀ x, sc.declares x = true ↔ x ∈ sc.order

theorem orderly_empty (name : String) : (empty name).Orderly := fun x => by
  rw [declares, lookup?_empty]
  simp [empty]

theorem order_declare (sc : Scope) (x : String) (b : Binding) :
    (sc.declare x b).order = if sc.declares x then sc.order else sc.order ++ [x] := rfl

theorem Orderly.declare {sc : Scope} (h : sc.Orderly) (x : String) (b : Binding) :
    (sc.declare x b).Orderly := by
  intro y
  rw [declares, lookup?_declare, order_declare]
  have hy := h y
  rw [declares] at hy
  by_cases hx : x = y
  · subst hx
    by_cases hd : sc.declares x = true
    · simp [hd, (h x).1 hd]
    · simp [hd]
  · rw [if_neg hx, hy]
    split
    · rfl
    · simp [Ne.symm hx]

structure Ordered (sc : Scope) : Prop where
  orderly : sc.Orderly
  nodup : sc.order.Nodup

theorem ordered_empty (name : String) : (empty name).Ordered :=
  ⟨orderly_empty name, List.nodup_nil⟩

theorem Ordered.declare {sc : Scope} (h : sc.Ordered) (x : String) (b : Binding) :
    (sc.declare x b).Ordered := by
  refine ⟨h.orderly.declare x b, ?_⟩
  rw [order_declare]
  split
  · exact h.nodup
  · rename_i hnot
    have hnew : x ∉ sc.order := fun hmem => hnot ((h.orderly x).2 hmem)
    exact List.nodup_append.2 ⟨h.nodup, by simp, fun y hy z hz => by
      rw [List.mem_singleton.1 hz]
      exact ne_of_mem_of_not_mem hy hnew⟩

theorem Ordered.lookup_toList {sc : Scope} (h : sc.Ordered) (x : String) :
    sc.toList.lookup x = sc.lookup? x := by
  refine (Bindings.lookup_listed sc.order sc.lookup? x).trans ?_
  split
  · rfl
  · rename_i hnot
    have hnone := mt (h.orderly x).1 hnot
    rw [declares, Option.not_isSome_iff_eq_none] at hnone
    exact hnone.symm

theorem Ordered.map_fst_toList {sc : Scope} (h : sc.Ordered) :
    sc.toList.map Prod.fst = sc.order :=
  Bindings.map_fst_listed fun y hy => (h.orderly y).2 hy

theorem toList_declare {sc : Scope} (h : sc.Ordered) (x : String) (b : Binding) :
    (sc.declare x b).toList = Bindings.declare x b sc.toList := by
  have hlookup : (sc.declare x b).lookup? = fun y => if x = y then some b else sc.lookup? y :=
    funext fun y => lookup?_declare sc x y b
  change Bindings.listed (sc.declare x b).order (sc.declare x b).lookup? = _
  rw [hlookup, order_declare]
  by_cases hd : sc.declares x = true
  · rw [if_pos hd]
    exact (Bindings.declare_listed_of_mem h.nodup ((h.orderly x).1 hd) hd).symm
  · have hnew : x ∉ sc.order := fun hmem => hd ((h.orderly x).2 hmem)
    have hnot : x ∉ sc.toList.map Prod.fst := by
      rw [h.map_fst_toList]
      exact hnew
    have hrest : Bindings.listed sc.order (fun y => if x = y then some b else sc.lookup? y) =
        sc.toList := Bindings.listed_congr fun y hy => if_neg (ne_of_mem_of_not_mem hy hnew).symm
    rw [if_neg hd, Bindings.declare_of_not_mem hnot, Bindings.listed_append, hrest]
    simp [Bindings.listed]

end Scope

/-- Lists of bindings with their names, and the numbers of those that are active. -/
structure Nest where
  scopes : List (String × Bindings)
  /-- The active lists, innermost first. -/
  stack : List ScopeId
  function : Option TypeId

namespace Nest

def empty : Nest := ⟨[], [], none⟩

def bindings (n : Nest) (id : ScopeId) : Bindings := (n.scopes[id]?.map Prod.snd).getD []

/-- The binding of a name in the innermost active list that has one. -/
def meaning (n : Nest) (x : String) : Option Binding :=
  n.stack.findSome? fun id => (n.bindings id).lookup x

end Nest

namespace Scoping

/-- An operation that leaves the table as it was where it fails. -/
def Careful {α : Type} (p : Scoping α) : Prop := ∀ t e u, p.run t = (.error e, u) → u = t

theorem careful_enter (id : ScopeId) : Careful (enter id) := by
  intro t e u h
  rw [run_enter] at h
  split at h
  · cases h
  · exact (Prod.mk.inj h).2.symm

theorem careful_leave : Careful leave := by
  intro t e u h
  rw [run_leave] at h
  split at h
  · exact (Prod.mk.inj h).2.symm
  · cases h

theorem careful_declare (x : String) (b : Binding) : Careful (declare x b) := by
  intro t e u h
  rw [run_declare] at h
  split at h
  · exact (Prod.mk.inj h).2.symm
  · cases h

end Scoping

namespace ScopeTable

inductive Action
  | openNew (name : String)
  | enter (id : ScopeId)
  | leave
  | declare (role : Role) (x : String) (type : TypeId)
  | enterFunction (type : TypeId)
  | functionType
  | listing (id : ScopeId)
  | binding (id : ScopeId) (x : String)
  | declaresHere (x : String)
  | find (x : String)
  | typeOf (x : String)
  | hasRole (role : Role) (x : String)
  | hasMain (types : TypeTable)

inductive Answer
  | done
  | failed (e : ScopeError)
  | scope (id : Option ScopeId)
  | listing (l : Option (String × Bindings))
  | binding (b : Option Binding)
  | type (t : Option TypeId)
  | truth (b : Bool)

def answered {α : Type} (answer : α → Answer) (p : Scoping α) (t : ScopeTable) :
    Answer × ScopeTable :=
  match p.run t with
  | (.ok a, u) => (answer a, u)
  | (.error e, u) => (.failed e, u)

def perform (t : ScopeTable) : Action → Answer × ScopeTable
  | .openNew name => (.scope (t.openNew name).2, (t.openNew name).1)
  | .enter id => answered (fun _ => .done) (.enter id) t
  | .leave => answered (fun id : ScopeId => .scope id) .leave t
  | .declare role x type => answered (fun _ => .done) (.declare x ⟨role, type⟩) t
  | .enterFunction type => (.done, t.enterFunction type)
  | .functionType =>
      match t.functionType with
      | .ok type => (.type type, t)
      | .error e => (.failed e, t)
  | .listing id => (.listing ((t.scope? id).map fun sc => (sc.name, sc.toList)), t)
  | .binding id x => (.binding ((t.scope? id).bind (·.lookup? x)), t)
  | .declaresHere x => (.truth (t.declaresHere x), t)
  | .find x => (.scope (t.find? x), t)
  | .typeOf x => (.type ((t.lookup? x).map Binding.type), t)
  | .hasRole role x => (.truth (t.hasRole role x), t)
  | .hasMain types => (.truth (t.hasMain types), t)

end ScopeTable

def Nest.perform (n : Nest) : ScopeTable.Action → ScopeTable.Answer × Nest
  | .openNew name =>
      (.scope n.scopes.length,
        { n with scopes := n.scopes ++ [(name, [])], stack := n.scopes.length :: n.stack })
  | .enter id =>
      if id < n.scopes.length then (.done, { n with stack := id :: n.stack })
      else (.failed (.unknown id), n)
  | .leave =>
      match n.stack with
      | [] => (.failed .underflow, n)
      | id :: stack => (.scope id, { n with stack := stack })
  | .declare role x type =>
      match n.stack with
      | [] => (.failed .underflow, n)
      | id :: _ => (.done, { n with
          scopes := n.scopes.modify id fun s => (s.1, s.2.declare x ⟨role, type⟩) })
  | .enterFunction type => (.done, { n with function := type })
  | .functionType =>
      match n.function with
      | none => (.failed .noFunction, n)
      | some type => (.type type, n)
  | .listing id => (.listing n.scopes[id]?, n)
  | .binding id x => (.binding ((n.bindings id).lookup x), n)
  | .declaresHere x => (.truth ((n.stack.head?.bind fun id => (n.bindings id).lookup x).isSome), n)
  | .find x => (.scope (n.stack.find? fun id => ((n.bindings id).lookup x).isSome), n)
  | .typeOf x => (.type ((n.meaning x).map Binding.type), n)
  | .hasRole role x => (.truth ((n.meaning x).any (·.role = role)), n)
  | .hasMain types =>
      (.truth (((n.bindings 0).lookup "main").any fun b => b.role = .function &&
        ((types.denote b.type).params.isEmpty && (types.denote b.type).isProcedure)), n)

def performAll {σ : Type} (perform : σ → ScopeTable.Action → ScopeTable.Answer × σ) :
    List ScopeTable.Action → σ → List ScopeTable.Answer × σ
  | [], s => ([], s)
  | a :: as, s =>
      let first := perform s a
      let others := performAll perform as first.2
      (first.1 :: others.1, others.2)

namespace ScopeTable

variable {t : ScopeTable}

def nest (t : ScopeTable) : Nest where
  scopes := t.scopes.map fun sc => (sc.name, sc.toList)
  stack := t.stack
  function := t.function

structure Ordered (t : ScopeTable) : Prop where
  scopes : ∀ sc ∈ t.scopes, sc.Ordered
  stack : ∀ id ∈ t.stack, id < t.scopes.length

theorem ordered_empty : empty.Ordered where
  scopes _ h := by cases h
  stack _ h := by cases h

theorem getElem?_nest (t : ScopeTable) (id : ScopeId) :
    t.nest.scopes[id]? = (t.scope? id).map fun sc => (sc.name, sc.toList) := List.getElem?_map

namespace Ordered

theorem lookup_bindings (h : t.Ordered) (id : ScopeId) (x : String) :
    (t.nest.bindings id).lookup x = (t.scope? id).bind (·.lookup? x) := by
  rw [Nest.bindings, getElem?_nest]
  cases hid : t.scope? id with
  | none => rfl
  | some sc => exact (h.scopes sc (List.mem_of_getElem? hid)).lookup_toList x

theorem declaresIn_eq (h : t.Ordered) (id : ScopeId) (x : String) :
    t.declaresIn id x = ((t.nest.bindings id).lookup x).isSome := by
  rw [h.lookup_bindings, declaresIn]
  cases t.scope? id <;> rfl

/-- The binding in the innermost scope that declares a name is the first binding on the stack. -/
theorem meaning_eq (h : t.Ordered) (x : String) : t.nest.meaning x = t.lookup? x := by
  rw [Nest.meaning, lookup?, find?]
  change t.stack.findSome? _ = _
  induction t.stack with
  | nil => rfl
  | cons id stack ih =>
    rw [List.findSome?_cons, List.find?_cons, h.declaresIn_eq, h.lookup_bindings]
    cases hid : (t.scope? id).bind (·.lookup? x) with
    | none => exact ih
    | some b => exact hid.symm

theorem modify_nest (h : t.Ordered) (id : ScopeId) (x : String) (b : Binding) :
    (t.scopes.modify id (·.declare x b)).map (fun sc => (sc.name, sc.toList)) =
      t.nest.scopes.modify id fun s => (s.1, s.2.declare x b) := by
  refine List.ext_getElem? fun i => ?_
  rw [List.getElem?_map, List.getElem?_modify, List.getElem?_modify, getElem?_nest, scope?]
  cases hi : t.scopes[i]? with
  | none => rfl
  | some sc =>
    have hdeclare := Scope.toList_declare (h.scopes sc (List.mem_of_getElem? hi)) x b
    by_cases hid : id = i
    · have hname : (sc.declare x b).name = sc.name := rfl
      simp [hid, hdeclare, hname]
    · simp [hid]

theorem enter (h : t.Ordered) {id : ScopeId} (hid : id < t.scopes.length) :
    Ordered { t with stack := id :: t.stack } :=
  ⟨h.scopes, List.forall_mem_cons.2 ⟨hid, h.stack⟩⟩

theorem openNew (h : t.Ordered) (name : String) : (t.openNew name).1.Ordered := by
  refine ⟨fun sc hsc => ?_, List.forall_mem_cons.2 ⟨?_, fun id hid => ?_⟩⟩
  · rcases List.mem_append.1 hsc with hold | hnew
    · exact h.scopes sc hold
    · rw [List.mem_singleton.1 hnew]
      exact Scope.ordered_empty name
  · simp [ScopeTable.openNew]
  · have hlt := h.stack id hid
    simp only [ScopeTable.openNew, List.length_append, List.length_singleton]
    exact Nat.lt_succ_of_lt hlt

theorem declare (h : t.Ordered) (id : ScopeId) (x : String) (b : Binding) :
    Ordered { t with scopes := t.scopes.modify id (·.declare x b) } := by
  refine ⟨fun sc hsc => ?_, fun k hk => ?_⟩
  · obtain ⟨i, hi⟩ := List.mem_iff_getElem?.1 hsc
    rw [List.getElem?_modify, Option.map_eq_map, Option.map_eq_some_iff] at hi
    obtain ⟨old, hold, rfl⟩ := hi
    have hordered := h.scopes old (List.mem_of_getElem? hold)
    split
    · exact hordered.declare x b
    · exact hordered
  · rw [List.length_modify]
    exact h.stack k hk

end Ordered

/-- One action: the table and its nest give the same answer, and become a table and its nest. -/
theorem Ordered.perform (h : t.Ordered) (a : Action) :
    (t.perform a).2.Ordered ∧ t.nest.perform a = ((t.perform a).1, (t.perform a).2.nest) := by
  cases a with
  | openNew name =>
    refine ⟨h.openNew name, ?_⟩
    simp [Nest.perform, ScopeTable.perform, ScopeTable.openNew, nest, Scope.empty, Scope.toList]
  | enter id =>
    have hlength : t.nest.scopes.length = t.scopes.length := List.length_map _
    rw [Nest.perform, hlength, ScopeTable.perform, answered, Scoping.run_enter]
    by_cases hid : id < t.scopes.length
    · rw [if_pos hid, if_pos hid]
      exact ⟨h.enter hid, rfl⟩
    · rw [if_neg hid, if_neg hid]
      exact ⟨h, rfl⟩
  | leave =>
    have hstacks : t.nest.stack = t.stack := rfl
    rw [Nest.perform, hstacks, ScopeTable.perform, answered, Scoping.run_leave]
    cases hstack : t.stack with
    | nil => exact ⟨h, rfl⟩
    | cons id stack =>
      refine ⟨⟨h.scopes, fun k hk => h.stack k ?_⟩, rfl⟩
      rw [hstack]
      exact List.mem_cons_of_mem id hk
  | declare role x type =>
    have hstacks : t.nest.stack = t.stack := rfl
    rw [Nest.perform, hstacks, ScopeTable.perform, answered, Scoping.run_declare]
    cases hstack : t.stack with
    | nil => exact ⟨h, rfl⟩
    | cons id stack =>
      have hmodify := h.modify_nest id x ⟨role, type⟩
      have hdeclare := h.declare id x ⟨role, type⟩
      rw [hstack] at hdeclare
      refine ⟨hdeclare, ?_⟩
      exact congrArg (fun scopes => (Answer.done, (⟨scopes, id :: stack, t.function⟩ : Nest)))
        hmodify.symm
  | enterFunction type => exact ⟨⟨h.scopes, h.stack⟩, rfl⟩
  | functionType =>
    have hfunctions : t.nest.function = t.function := rfl
    rw [Nest.perform, hfunctions, ScopeTable.perform, ScopeTable.functionType]
    cases t.function with
    | none => exact ⟨h, rfl⟩
    | some type => exact ⟨h, rfl⟩
  | listing id => exact ⟨h, by rw [Nest.perform, getElem?_nest]; rfl⟩
  | binding id x => exact ⟨h, by rw [Nest.perform, h.lookup_bindings]; rfl⟩
  | declaresHere x =>
    refine ⟨h, ?_⟩
    simp only [Nest.perform, ScopeTable.perform, ScopeTable.declaresHere]
    have hnest : t.nest.stack = t.stack := rfl
    rw [hnest]
    cases t.stack with
    | nil => rfl
    | cons id stack => simp [h.declaresIn_eq]
  | find x =>
    refine ⟨h, ?_⟩
    simp only [Nest.perform, ScopeTable.perform, find?, h.declaresIn_eq]
    rfl
  | typeOf x => exact ⟨h, by rw [Nest.perform, h.meaning_eq]; rfl⟩
  | hasRole role x => exact ⟨h, by rw [Nest.perform, h.meaning_eq]; rfl⟩
  | hasMain types =>
    refine ⟨h, ?_⟩
    rw [Nest.perform, h.lookup_bindings, ScopeTable.perform, ScopeTable.hasMain]
    rcases (t.scope? 0).bind (·.lookup? "main") with _ | ⟨_ | _ | _, type⟩ <;> simp

theorem Ordered.performAll (h : t.Ordered) (as : List Action) :
    (performAll ScopeTable.perform as t).2.Ordered ∧ performAll Nest.perform as t.nest =
      ((performAll ScopeTable.perform as t).1, (performAll ScopeTable.perform as t).2.nest) := by
  induction as generalizing t with
  | nil => exact ⟨h, rfl⟩
  | cons a as ih =>
    obtain ⟨hfirst, hnest⟩ := h.perform a
    obtain ⟨hall, hrest⟩ := ih hfirst
    refine ⟨hall, ?_⟩
    rw [Asl.performAll, hnest]
    simp only [hrest, Asl.performAll]

theorem answered_failed {α : Type} {answer : α → Answer} {p : Scoping α} {e : ScopeError}
    (hp : p.Careful) (hanswer : ∀ a e, answer a ≠ .failed e)
    (h : (answered answer p t).1 = .failed e) : (answered answer p t).2 = t := by
  unfold answered at h ⊢
  rcases hrun : p.run t with ⟨e' | a, u⟩
  · exact hp t e' u hrun
  · rw [hrun] at h
    exact absurd h (hanswer a e)

theorem perform_failed {a : Action} {e : ScopeError} (h : (t.perform a).1 = .failed e) :
    (t.perform a).2 = t := by
  cases a with
  | enter id => exact answered_failed (Scoping.careful_enter id) (by rintro _ _ ⟨⟩) h
  | leave => exact answered_failed Scoping.careful_leave (by rintro _ _ ⟨⟩) h
  | declare role x type =>
    exact answered_failed (Scoping.careful_declare x ⟨role, type⟩) (by rintro _ _ ⟨⟩) h
  | functionType =>
    rw [perform] at h ⊢
    split at h
    · cases h
    · rfl
  | openNew | enterFunction => cases h
  | _ => rfl

/-- A new table answers every sequence of actions as an empty nest does, and has become the table of
that nest. Its scopes list every name that they declare once, in the order of the nest, and an
action that fails changes nothing. -/
theorem answers_as_nest (as : List Action) :
    let t := (performAll ScopeTable.perform as .empty).2
    let n := (performAll Nest.perform as .empty).2
    (performAll ScopeTable.perform as .empty).1 = (performAll Nest.perform as .empty).1 ∧
      t.scopes.map (fun sc => (sc.name, sc.toList)) = n.scopes ∧ t.stack = n.stack ∧
      (∀ sc ∈ t.scopes, (sc.toList.map Prod.fst).Nodup ∧
        ∀ x, x ∈ sc.toList.map Prod.fst ↔ sc.declares x = true) ∧
      (∀ id ∈ t.stack, (t.scope? id).isSome) ∧
      ∀ a e, (t.perform a).1 = .failed e → (t.perform a).2 = t := by
  intro t n
  obtain ⟨hordered, heq⟩ := ordered_empty.performAll as
  have hanswers := congrArg Prod.fst heq
  have hnest : n = t.nest := congrArg Prod.snd heq
  refine ⟨hanswers.symm, ?_, ?_, fun sc hsc => ?_, fun id hid => ?_, fun a e => perform_failed⟩
  · rw [hnest]
    rfl
  · rw [hnest]
    rfl
  · have hsc' := hordered.scopes sc hsc
    rw [hsc'.map_fst_toList]
    exact ⟨hsc'.nodup, fun x => (hsc'.orderly x).symm⟩
  · rw [scope?, List.getElem?_eq_getElem (hordered.stack id hid)]
    rfl

/-- The scope `0` is entered again inside the scope `1`, whose `x` is hidden until it is left. -/
theorem answers_reentered :
    (performAll ScopeTable.perform
      [.openNew "program", .declare .variable "x" 2, .openNew "f", .declare .parameter "x" 3,
        .declare .variable "y" 2, .enter 0, .typeOf "x", .declare .function "x" 4, .leave,
        .find "x", .declare .variable "x" 5, .listing 1, .listing 0, .leave, .typeOf "x", .leave,
        .leave, .enter 2] .empty).1 =
      [.scope (some 0), .done, .scope (some 1), .done, .done, .done, .type (some 2), .done,
        .scope (some 0), .scope (some 1), .done,
        .listing (some ("f", [("x", ⟨.variable, 5⟩), ("y", ⟨.variable, 2⟩)])),
        .listing (some ("program", [("x", ⟨.function, 4⟩)])), .scope (some 1), .type (some 4),
        .scope (some 0), .failed .underflow, .failed (.unknown 2)] :=
  (answers_as_nest _).1.trans rfl

end ScopeTable

end Asl
