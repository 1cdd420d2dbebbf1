import Asl.Proofs.Ty.Table
import Asl.Session
import Mathlib.Data.List.Forall2
import Mathlib.Logic.Function.Basic

/-!
# What a session says

The view of a session forgets the table of types: a scope gives names their meanings, a node has a
type and not a place in a table. Interning changes nothing that can be seen. A session is sound if
its places are in range and its table is well formed; every operation of a pass keeps a sound
session sound and does to the view what it says.
-/
namespace Asl

/-- What a scope, or a stack of scopes, gives as the meaning of a name. -/
abbrev Meanings : Type := String → Option (Role × Ty)

structure View where
  scopes : List Meanings
  /-- The active scopes, innermost first. -/
  stack : List ScopeId
  function : Option Ty
  scopeOf : NodeId → Option ScopeId
  typeOf : NodeId → Option Ty
  isPlace : NodeId → Option Bool
  diagnostics : List Diagnostic

namespace View

def meaning (v : View) : Meanings := fun x => v.stack.findSome? fun k => (v.scopes[k]?).bind (· x)

def declaresHere (v : View) (x : String) : Bool :=
  v.stack.head?.any fun k => ((v.scopes[k]?).bind (· x)).isSome

def hasMain (v : View) : Bool :=
  match (v.scopes[0]?).bind (· "main") with
  | some (Role.function, t) => t.params.isEmpty && t.isProcedure
  | _ => false

def setType (v : View) (n : NodeId) (t : Ty) : View :=
  { v with typeOf := Function.update v.typeOf n (some t) }

def setScope (v : View) (n : NodeId) (k : ScopeId) : View :=
  { v with scopeOf := Function.update v.scopeOf n (some k) }

def setPlace (v : View) (n : NodeId) (b : Bool) : View :=
  { v with isPlace := Function.update v.isPlace n (some b) }

def report (v : View) (ds : List Diagnostic) : View :=
  { v with diagnostics := v.diagnostics ++ ds }

def openScope (v : View) : View :=
  { v with scopes := v.scopes ++ [fun _ => none], stack := v.scopes.length :: v.stack }

def enter (v : View) (k : ScopeId) : View := { v with stack := k :: v.stack }

def leave (v : View) : View := { v with stack := v.stack.tail }

def enterFunction (v : View) (t : Ty) : View := { v with function := some t }

def bind (v : View) (x : String) (m : Role × Ty) : View :=
  match v.stack with
  | [] => v
  | k :: _ =>
      { v with scopes := v.scopes.modify k fun ms => Function.update ms x (some m) }

/-- Declares a name in the innermost scope, or reports that it is declared already. -/
def declare (v : View) (role : Role) (x : Ident) (t : Ty) : View :=
  if v.declaresHere x.name then v.report [⟨x.mark, .redeclared x.name⟩]
  else v.bind x.name (role, t)

end View

def Scope.meanings (types : TypeTable) (s : Scope) : Meanings :=
  fun x => (s.lookup? x).map fun b => (b.role, types.denote b.type)

theorem Scope.meanings_declare (types : TypeTable) (sc : Scope) (x : String) (b : Binding) :
    (sc.declare x b).meanings types =
      Function.update (sc.meanings types) x (some (b.role, types.denote b.type)) := by
  funext y
  simp only [Scope.meanings, Scope.lookup?_declare]
  by_cases h : x = y
  · subst h
    simp
  · rw [if_neg h, Function.update_of_ne (Ne.symm h), Scope.meanings]

namespace Session

def view (s : Session) : View where
  scopes := s.scopes.scopes.map (Scope.meanings s.types)
  stack := s.scopes.stack
  function := s.scopes.function.map s.types.denote
  scopeOf n := (s.attributes.get n).scope
  typeOf n := ((s.attributes.get n).type).map s.types.denote
  isPlace n := (s.attributes.get n).isPlace
  diagnostics := s.diagnostics

structure Sound (s : Session) : Prop where
  types : s.types.WellFormed
  bindings : ∀ sc ∈ s.scopes.scopes, ∀ x b, sc.lookup? x = some b → b.type < s.types.size
  attributes : ∀ n id, (s.attributes.get n).type = some id → id < s.types.size
  function : ∀ id, s.scopes.function = some id → id < s.types.size

theorem sound_fresh : Session.fresh.Sound where
  types := TypeTable.wellFormed_empty
  bindings sc h := absurd h List.not_mem_nil
  attributes n id h := by simp [fresh, AttributeTable.empty, AttributeTable.get] at h
  function id h := by simp [fresh, ScopeTable.empty] at h

theorem view_scope (s : Session) (k : ScopeId) (x : String) :
    (s.view.scopes[k]?).bind (· x) =
      ((s.scopes.scope? k).bind (·.lookup? x)).map fun b => (b.role, s.types.denote b.type) := by
  simp only [view, List.getElem?_map, ScopeTable.scope?]
  cases s.scopes.scopes[k]? <;> rfl

theorem view_declaresIn (s : Session) (k : ScopeId) (x : String) :
    s.scopes.declaresIn k x = ((s.view.scopes[k]?).bind (· x)).isSome := by
  rw [view_scope, Option.isSome_map, ScopeTable.declaresIn]
  cases s.scopes.scope? k <;> rfl

theorem view_declaresHere (s : Session) (x : String) :
    s.scopes.declaresHere x = s.view.declaresHere x := by
  have hf : s.scopes.declaresIn =
      fun k y => ((s.view.scopes[k]?).bind (· y)).isSome := by
    funext k y
    exact view_declaresIn s k y
  simp only [ScopeTable.declaresHere, View.declaresHere, hf]
  rfl

theorem view_meaning (s : Session) : s.meaning = s.view.meaning := by
  funext x
  have hv : s.view.stack = s.scopes.stack := rfl
  simp only [meaning, ScopeTable.lookup?, ScopeTable.find?, View.meaning, hv]
  induction s.scopes.stack with
  | nil => rfl
  | cons k stack ih =>
    rw [List.find?_cons, List.findSome?_cons, view_declaresIn, view_scope]
    cases hk : s.scopes.scope? k with
    | none => simpa using ih
    | some sc =>
      cases hl : sc.lookup? x with
      | none => simpa [hl] using ih
      | some b => simp [hk, hl]

theorem view_hasMain (s : Session) : s.scopes.hasMain s.types = s.view.hasMain := by
  unfold ScopeTable.hasMain View.hasMain
  rw [view_scope]
  cases hb : (s.scopes.scope? 0).bind (·.lookup? "main") with
  | none => rfl
  | some b =>
    obtain ⟨role, type⟩ := b
    cases role <;> rfl

theorem scope_eq_ok_iff {s : Session} {n : NodeId} {k : ScopeId} :
    s.attributes.scope n = .ok k ↔ s.view.scopeOf n = some k := by
  have hv : s.view.scopeOf n = (s.attributes.get n).scope := rfl
  rw [AttributeTable.scope, hv]
  cases (s.attributes.get n).scope <;> simp

theorem isPlace_eq_ok_iff {s : Session} {n : NodeId} {b : Bool} :
    s.attributes.isPlace n = .ok b ↔ s.view.isPlace n = some b := by
  have hv : s.view.isPlace n = (s.attributes.get n).isPlace := rfl
  rw [AttributeTable.isPlace, hv]
  cases (s.attributes.get n).isPlace <;> simp

theorem view_typeOf_of_type {s : Session} {n : NodeId} {id : TypeId}
    (h : s.attributes.type n = .ok id) : s.view.typeOf n = some (s.types.denote id) := by
  have hv : s.view.typeOf n = ((s.attributes.get n).type).map s.types.denote := rfl
  rw [AttributeTable.type] at h
  rw [hv]
  cases hget : (s.attributes.get n).type with
  | none =>
    rw [hget] at h
    cases h
  | some i =>
    rw [hget] at h
    cases h
    rfl

theorem typeOf_eq_ok {s : Session} {n : NodeId} {t : Ty} (h : s.view.typeOf n = some t) :
    s.typeOf n = .ok t := by
  simp only [view, Option.map_eq_some_iff] at h
  obtain ⟨id, hid, rfl⟩ := h
  simp only [typeOf, AttributeTable.type, hid]
  rfl

/-- How a session changes when its view becomes `v`. -/
structure Moves (s s' : Session) (v : View) : Prop where
  sound : s'.Sound
  extends_ : s.types.Extends s'.types
  view : s'.view = v

def Means (s : Session) (id : TypeId) (t : Ty) : Prop :=
  id < s.types.size ∧ s.types.denote id = t

theorem Moves.trans {s s' s'' : Session} {v w : View} (h : s.Moves s' v) (h' : s'.Moves s'' w) :
    s.Moves s'' w := ⟨h'.sound, h.extends_.trans h'.extends_, h'.view⟩

theorem Moves.means {s s' : Session} {v : View} (h : s.Moves s' v) {id : TypeId} {t : Ty}
    (hm : s.Means id t) : s'.Means id t :=
  ⟨Nat.lt_of_lt_of_le hm.1 h.extends_.size_le, (h.extends_.denote hm.1).trans hm.2⟩

theorem grow_moves {s : Session} (hs : s.Sound) {types : TypeTable} (hw : types.WellFormed)
    (he : s.types.Extends types) : s.Moves { s with types := types } s.view where
  sound :=
    { types := hw
      bindings := fun sc hsc x b hb => Nat.lt_of_lt_of_le (hs.bindings sc hsc x b hb) he.size_le
      attributes := fun n id hid => Nat.lt_of_lt_of_le (hs.attributes n id hid) he.size_le
      function := fun id hid => Nat.lt_of_lt_of_le (hs.function id hid) he.size_le }
  extends_ := he
  view := by
    have hscopes : s.scopes.scopes.map (Scope.meanings types) =
        s.scopes.scopes.map (Scope.meanings s.types) := by
      refine List.map_congr_left fun sc hsc => funext fun x => ?_
      refine Option.map_congr fun b hb => ?_
      rw [he.denote (hs.bindings sc hsc x b hb)]
    have htypes : ∀ n, ((s.attributes.get n).type).map types.denote =
        ((s.attributes.get n).type).map s.types.denote :=
      fun n => Option.map_congr fun id hid => he.denote (hs.attributes n id hid)
    have hfunction : s.scopes.function.map types.denote =
        s.scopes.function.map s.types.denote :=
      Option.map_congr fun id hid => he.denote (hs.function id hid)
    simp only [view, hscopes, hfunction, htypes]

end Session

namespace Pass

open Attempt (run_bind)

variable {ε α β : Type}

/-- A pass succeeds and leaves a sound session of a given view; its value satisfies `Q`. -/
def Yields (p : Pass ε α) (s : Session) (v : View) (Q : α → Session → Prop) : Prop :=
  ∃ a s', p.run s = (.ok a, s') ∧ s.Moves s' v ∧ Q a s'

theorem Yields.bind {p : Pass ε α} {f : α → Pass ε β} {s : Session} {v w : View}
    {Q : α → Session → Prop} {R : β → Session → Prop} (hp : Yields p s v Q)
    (hf : ∀ a s', s.Moves s' v → Q a s' → Yields (f a) s' w R) : Yields (p >>= f) s w R := by
  obtain ⟨a, s', hrun, hm, hq⟩ := hp
  obtain ⟨b, s'', hrun', hm', hr⟩ := hf a s' hm hq
  refine ⟨b, s'', ?_, hm.trans hm', hr⟩
  rw [run_bind, hrun]
  exact hrun'

theorem yields_pure {s : Session} (hs : s.Sound) {v : View} (hv : s.view = v) (a : α)
    {Q : α → Session → Prop} (hq : Q a s) : Yields (pure a : Pass ε α) s v Q :=
  ⟨a, s, rfl, ⟨hs, TypeTable.Extends.refl _, hv⟩, hq⟩

variable {s : Session}

theorem yields_report (hs : s.Sound) (ds : List Diagnostic) :
    Yields (report ds : Pass ε Unit) s (s.view.report ds) fun _ _ => True :=
  ⟨(), _, rfl, ⟨⟨hs.types, hs.bindings, hs.attributes, hs.function⟩, TypeTable.Extends.refl _,
    rfl⟩, trivial⟩

theorem yields_intern (hs : s.Sound) (t : Ty) :
    Yields (intern t : Pass ε TypeId) s s.view fun id s' => s'.Means id t := by
  have h := TypeTable.intern_holds hs.types t
  exact ⟨_, _, rfl, Session.grow_moves hs h.wellFormed h.extends_, h.lt_size, h.denote⟩

theorem yields_addFunction (hs : s.Sound) {ids : List TypeId} {r : TypeId} {params : List Ty}
    {result : Ty} (hps : List.Forall₂ s.Means ids params) (hr : s.Means r result) :
    Yields (addNode (.function ids r) : Pass ε TypeId) s s.view
      fun id s' => s'.Means id (.function params result) := by
  have hids : (∀ p ∈ ids, p < s.types.size) ∧ ids.map s.types.denote = params := by
    induction hps with
    | nil => exact ⟨fun _ h => absurd h List.not_mem_nil, rfl⟩
    | cons h _ ih =>
      exact ⟨List.forall_mem_cons.2 ⟨h.1, ih.1⟩, by rw [List.map_cons, h.2, ih.2]⟩
  have hparts : (TypeNode.function ids r).PartsBelow s.types.size := ⟨hids.1, hr.1⟩
  have h := TypeTable.add_holds hs.types hparts
  rw [TypeNode.toTy, hids.2, hr.2] at h
  exact ⟨_, _, rfl, Session.grow_moves hs h.wellFormed h.extends_, h.lt_size, h.denote⟩

theorem yields_setType (hs : s.Sound) (n : NodeId) {id : TypeId} {t : Ty} (hm : s.Means id t) :
    Yields (setType n id : Pass ε Unit) s (s.view.setType n t) fun _ _ => True := by
  refine ⟨(), _, rfl, ⟨⟨hs.types, hs.bindings, ?_, hs.function⟩, TypeTable.Extends.refl _, ?_⟩,
    trivial⟩
  · intro m id' h
    simp only [AttributeTable.setType, AttributeTable.get_update] at h
    split at h
    · cases h
      exact hm.1
    · exact hs.attributes m id' h
  · simp only [Session.view, View.setType, AttributeTable.setType, AttributeTable.get_update]
    congr 1 <;> funext m <;> by_cases h : n = m
    · subst h; simp
    · simp [h]
    · subst h; simp [hm.2]
    · simp [h, Function.update_of_ne (Ne.symm h)]
    · subst h; simp
    · simp [h]

theorem yields_setScope (hs : s.Sound) (n : NodeId) (k : ScopeId) :
    Yields (setScope n k : Pass ε Unit) s (s.view.setScope n k) fun _ _ => True := by
  refine ⟨(), _, rfl, ⟨⟨hs.types, hs.bindings, ?_, hs.function⟩, TypeTable.Extends.refl _, ?_⟩,
    trivial⟩
  · intro m id' h
    simp only [AttributeTable.setScope, AttributeTable.get_update] at h
    split at h
    · exact hs.attributes n id' h
    · exact hs.attributes m id' h
  · simp only [Session.view, View.setScope, AttributeTable.setScope, AttributeTable.get_update]
    congr 1 <;> funext m <;> by_cases h : n = m
    · subst h; simp
    · simp [h, Function.update_of_ne (Ne.symm h)]
    · subst h; simp
    · simp [h]
    · subst h; simp
    · simp [h]

theorem yields_setPlace (hs : s.Sound) (n : NodeId) (b : Bool) :
    Yields (setPlace n b : Pass ε Unit) s (s.view.setPlace n b) fun _ _ => True := by
  refine ⟨(), _, rfl, ⟨⟨hs.types, hs.bindings, ?_, hs.function⟩, TypeTable.Extends.refl _, ?_⟩,
    trivial⟩
  · intro m id' h
    simp only [AttributeTable.setPlace, AttributeTable.get_update] at h
    split at h
    · exact hs.attributes n id' h
    · exact hs.attributes m id' h
  · simp only [Session.view, View.setPlace, AttributeTable.setPlace, AttributeTable.get_update]
    congr 1 <;> funext m <;> by_cases h : n = m
    · subst h; simp
    · simp [h]
    · subst h; simp
    · simp [h]
    · subst h; simp
    · simp [h, Function.update_of_ne (Ne.symm h)]

theorem yields_openScope (hs : s.Sound) (name : String) :
    Yields (openScope name : Pass ε ScopeId) s s.view.openScope
      fun k _ => k = s.view.scopes.length := by
  refine ⟨_, _, rfl, ⟨⟨hs.types, ?_, hs.attributes, hs.function⟩, TypeTable.Extends.refl _, ?_⟩,
    by simp [Session.view]⟩
  · intro sc hsc x b hb
    rcases List.mem_append.1 hsc with h | h
    · exact hs.bindings sc h x b hb
    · rw [List.mem_singleton.1 h, Scope.lookup?_empty] at hb
      cases hb
  · have hempty : Scope.meanings s.types (.empty name) = fun _ => none := by
      funext x
      simp only [Scope.meanings, Scope.lookup?_empty, Option.map_none]
    simp [Session.view, View.openScope, hempty]

theorem yields_leaveScope (hs : s.Sound) (f : ScopeError → ε) (hstack : s.view.stack ≠ []) :
    Yields (leaveScope f : Pass ε Unit) s s.view.leave fun _ _ => True := by
  have hv : s.view.stack = s.scopes.stack := rfl
  cases hst : s.scopes.stack with
  | nil => exact absurd (hv.trans hst) hstack
  | cons k stack =>
    refine ⟨(), _, run_leaveScope hst,
      ⟨⟨hs.types, hs.bindings, hs.attributes, hs.function⟩, TypeTable.Extends.refl _, ?_⟩, trivial⟩
    simp only [Session.view, View.leave, hst, List.tail_cons]

theorem yields_enterScope (hs : s.Sound) (f : ScopeError → ε) {k : ScopeId}
    (hk : k < s.view.scopes.length) :
    Yields (enterScope f k : Pass ε Unit) s (s.view.enter k) fun _ _ => True := by
  have hk' : k < s.scopes.scopes.length := by simpa [Session.view] using hk
  exact ⟨(), _, run_enterScope hk',
    ⟨⟨hs.types, hs.bindings, hs.attributes, hs.function⟩, TypeTable.Extends.refl _, rfl⟩, trivial⟩

theorem yields_declareName (hs : s.Sound) (role : Role) (x : Ident) {id : TypeId} {t : Ty}
    (hm : s.Means id t) (hstack : s.view.stack ≠ []) :
    Yields (declareName role x id) s (s.view.declare role x t) fun _ _ => True := by
  simp only [View.declare, ← Session.view_declaresHere]
  cases hd : s.scopes.declaresHere x.name with
  | true =>
    obtain ⟨a, s', hrun, hmv, -⟩ := yields_report (ε := AnalysisError) hs
      [⟨x.mark, .redeclared x.name⟩]
    refine ⟨a, s', ?_, ?_, trivial⟩
    · simpa only [declareName, run_bind, Attempt.run_get, hd, if_true] using hrun
    · simpa only [if_true] using hmv
  | false =>
    have hv : s.view.stack = s.scopes.stack := rfl
    cases hst : s.scopes.stack with
    | nil => exact absurd (hv.trans hst) hstack
    | cons k stack =>
      refine ⟨(), _, run_declareName hd hst, ⟨⟨hs.types, ?_, hs.attributes, hs.function⟩,
        TypeTable.Extends.refl _, ?_⟩, trivial⟩
      · intro sc hsc y b hb
        obtain ⟨i, hi⟩ := List.mem_iff_getElem?.1 hsc
        rw [List.getElem?_modify, Option.map_eq_map, Option.map_eq_some_iff] at hi
        obtain ⟨old, hold, rfl⟩ := hi
        have hin := hs.bindings old (List.mem_of_getElem? hold) y
        split at hb
        · rw [Scope.lookup?_declare] at hb
          split at hb
          · cases hb
            exact hm.1
          · exact hin b hb
        · exact hin b hb
      · have hmap : (s.scopes.scopes.modify k (·.declare x.name ⟨role, id⟩)).map
            (Scope.meanings s.types) = (s.scopes.scopes.map (Scope.meanings s.types)).modify k
              fun ms => Function.update ms x.name (some (role, t)) := by
          refine List.ext_getElem? fun i => ?_
          simp only [List.getElem?_map, List.getElem?_modify, Option.map_eq_map, Option.map_map]
          refine Option.map_congr fun sc _ => ?_
          by_cases h : k = i
          · simp [h, Scope.meanings_declare, hm.2]
          · simp [h]
        simp only [View.bind, hv, hst]
        simp only [Session.view, hmap, Bool.false_eq_true, if_false, hst]

end Pass

end Asl
