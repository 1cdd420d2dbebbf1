import Asl.Proofs.Scope.Nested
import Asl.Proofs.Session.Declaring

/-!
# What the scopes list

A view of a session gives names their meanings and does not say in which order a scope lists them.
The order is followed here through the first pass: a scope lists the names of its entries in the
order in which the first entries of these names were declared. Names, orders and the active scopes
make up the roll of a session; what an operation does to the roll does not depend on any type.
-/
open scoped List

namespace Asl

namespace Entry

def firsts : List Entry → List Entry
  | [] => []
  | e :: es => e :: (firsts es).filter (·.name ≠ e.name)

def listed (e : Entry) : String × Role × Ty := (e.name, e.role, e.type)

theorem firsts_sublist (es : List Entry) : firsts es <+ es := by
  induction es with
  | nil => exact List.Sublist.refl _
  | cons e es ih => exact (List.filter_sublist.trans ih).cons_cons e

theorem mem_map_firsts {es : List Entry} {x : String} :
    x ∈ (firsts es).map name ↔ x ∈ es.map name := by
  refine ⟨fun h => ((firsts_sublist es).map name).subset h, fun h => ?_⟩
  induction es with
  | nil => exact h
  | cons e es ih =>
    rw [firsts, List.map_cons, List.mem_cons]
    by_cases hx : x = e.name
    · exact Or.inl hx
    · rw [List.map_cons, List.mem_cons] at h
      obtain ⟨e', he', rfl⟩ := List.mem_map.1 (ih (h.resolve_left hx))
      exact Or.inr (List.mem_map.2 ⟨e', List.mem_filter.2 ⟨he', by simpa using hx⟩, rfl⟩)

theorem nodup_map_firsts (es : List Entry) : ((firsts es).map name).Nodup := by
  induction es with
  | nil => exact List.nodup_nil
  | cons e es ih =>
    rw [firsts, List.map_cons, List.nodup_cons]
    refine ⟨fun h => ?_, ih.sublist (List.filter_sublist.map name)⟩
    obtain ⟨e', he', hname⟩ := List.mem_map.1 h
    have hne := (List.mem_filter.1 he').2
    exact absurd hname (by simpa using hne)

theorem firsts_concat (es : List Entry) (e : Entry) :
    firsts (es ++ [e]) = if e.name ∈ es.map name then firsts es else firsts es ++ [e] := by
  induction es with
  | nil => rfl
  | cons d es ih =>
    rw [List.cons_append, firsts, ih, firsts, List.map_cons]
    by_cases hd : e.name = d.name
    · have hfilter : (firsts es ++ [e]).filter (·.name ≠ d.name) =
          (firsts es).filter (·.name ≠ d.name) := by
        simp [hd]
      have hmem : e.name ∈ d.name :: es.map name := by
        rw [hd]
        exact List.mem_cons_self
      rw [if_pos hmem]
      split
      · rfl
      · rw [hfilter]
    · by_cases hmem : e.name ∈ es.map name
      · rw [if_pos hmem, if_pos (List.mem_cons_of_mem _ hmem)]
      · have hnot : e.name ∉ d.name :: es.map name := by
          rw [List.mem_cons, not_or]
          exact ⟨hd, hmem⟩
        rw [if_neg hmem, if_neg hnot, List.filter_append]
        simp [hd]

theorem meaning?_of_mem_firsts {es : List Entry} {e : Entry} (h : e ∈ firsts es) :
    meaning? es e.name = some (e.role, e.type) := by
  induction es with
  | nil => cases h
  | cons d es ih =>
    rw [meaning?]
    rcases List.mem_cons.1 h with rfl | h
    · exact if_pos rfl
    · obtain ⟨hmem, hne⟩ := List.mem_filter.1 h
      have hne' : d.name ≠ e.name := fun he => (of_decide_eq_true hne) he.symm
      rw [if_neg hne']
      exact ih hmem

end Entry

namespace Scope

/-- All that a scope lists, where its places in a table of types are replaced by the types. -/
def listing (types : TypeTable) (sc : Scope) : List (String × Role × Ty) :=
  sc.toList.map fun x => (x.1, x.2.role, types.denote x.2.type)

theorem listing_eq {types : TypeTable} {sc : Scope} {es : List Entry}
    (horder : sc.order = (Entry.firsts es).map Entry.name)
    (hmeaning : sc.meanings types = Entry.meaning? es) :
    sc.listing types = (Entry.firsts es).map Entry.listed := by
  have hlist : sc.listing types =
      sc.order.filterMap fun x => (sc.meanings types x).map fun m => (x, m) := by
    rw [listing, toList, List.map_filterMap]
    refine List.filterMap_congr fun x _ => ?_
    rw [meanings, Option.map_map, Option.map_map]
    rfl
  rw [hlist, horder, hmeaning, List.filterMap_map, ← List.filterMap_eq_map]
  refine List.filterMap_congr fun e he => ?_
  rw [Function.comp_apply, Entry.meaning?_of_mem_firsts he]
  rfl

theorem map_listing_eq {types : TypeTable} {scs : List Scope} {ess : List (List Entry)}
    (horder : scs.map order = ess.map fun es => (Entry.firsts es).map Entry.name)
    (hmeaning : scs.map (meanings types) = ess.map Entry.meaning?) :
    scs.map (listing types) = ess.map fun es => (Entry.firsts es).map Entry.listed := by
  induction scs generalizing ess with
  | nil =>
    cases ess with
    | nil => rfl
    | cons es ess => cases horder
  | cons sc scs ih =>
    cases ess with
    | nil => cases horder
    | cons es ess =>
      obtain ⟨ho, horder⟩ := List.cons.inj horder
      obtain ⟨hm, hmeaning⟩ := List.cons.inj hmeaning
      rw [List.map_cons, List.map_cons, listing_eq ho hm, ih horder hmeaning]

end Scope

/-- The scopes of a session by their names and the names that they list, and the active scopes. -/
structure Roll where
  scopes : List (String × List String)
  /-- The active scopes, innermost first. -/
  stack : List ScopeId

namespace Roll

def openScope (r : Roll) (name : String) : Roll :=
  ⟨r.scopes ++ [(name, [])], r.scopes.length :: r.stack⟩

def leave (r : Roll) : Roll := { r with stack := r.stack.tail }

/-- A roll whose scope `k`, called `name`, has come to list some entries. -/
def listing (r : Roll) (k : ScopeId) (name : String) (es : List Entry) : Roll :=
  { r with scopes := r.scopes.set k (name, (Entry.firsts es).map Entry.name) }

def declared (fs : List Function) : Roll where
  scopes := (globalName, (Entry.firsts (fs.map Function.entry)).map Entry.name) ::
    fs.map fun f => (f.name.name, (Entry.firsts f.entries).map Entry.name)
  stack := [0]

theorem declared_append (fs : List Function) (f : Function) :
    ((((declared fs).openScope f.name.name).listing (fs.length + 1) f.name.name f.entries).leave
      ).listing 0 globalName (fs.map Function.entry ++ [f.entry]) = declared (fs ++ [f]) := by
  simp [declared, openScope, listing, leave]

end Roll

namespace Session

def roll (s : Session) : Roll :=
  ⟨s.scopes.scopes.map fun sc => (sc.name, sc.order), s.scopes.stack⟩

def Orderly (s : Session) : Prop := ∀ sc ∈ s.scopes.scopes, sc.Orderly

def listings (s : Session) : List (List (String × Role × Ty)) :=
  s.scopes.scopes.map (Scope.listing s.types)

theorem orderly_fresh : fresh.Orderly := fun _ h => absurd h List.not_mem_nil

end Session

namespace Pass

open Attempt (run_bind_eq_ok)

variable {ε α β : Type}

/-- A pass leads from one roll to another whenever it succeeds, and keeps the scopes orderly. -/
def Enrolls (p : Pass ε α) (r r' : Roll) : Prop :=
  ∀ s a s', p.run s = (.ok a, s') → s.Orderly → s.roll = r → s'.Orderly ∧ s'.roll = r'

theorem enrolls_pure (a : α) (r : Roll) : Enrolls (pure a : Pass ε α) r r := by
  intro s b s' h hs hr
  cases h
  exact ⟨hs, hr⟩

theorem Enrolls.bind {p : Pass ε α} {f : α → Pass ε β} {r r' r'' : Roll} (hp : Enrolls p r r')
    (hf : ∀ a, Enrolls (f a) r' r'') : Enrolls (p >>= f) r r'' := by
  intro s b s'' h hs hr
  obtain ⟨a, s', hrun, hrun'⟩ := run_bind_eq_ok.1 h
  obtain ⟨hs', hr'⟩ := hp s a s' hrun hs hr
  exact hf a s' b s'' hrun' hs' hr'

theorem enrolls_of_scopes_eq {p : Pass ε α} (h : ∀ s, (p.run s).2.scopes = s.scopes) (r : Roll) :
    Enrolls p r r := by
  intro s a s' hrun hs hr
  have hscopes := h s
  rw [hrun] at hscopes
  rw [Session.Orderly, Session.roll, hscopes]
  exact ⟨hs, hr⟩

theorem enrolls_intern (t : Ty) (r : Roll) : Enrolls (intern t : Pass ε TypeId) r r :=
  enrolls_of_scopes_eq (fun _ => rfl) r

theorem enrolls_setType (n : NodeId) (id : TypeId) (r : Roll) :
    Enrolls (setType n id : Pass ε Unit) r r :=
  enrolls_of_scopes_eq (fun _ => rfl) r

theorem enrolls_setScope (n : NodeId) (k : ScopeId) (r : Roll) :
    Enrolls (setScope n k : Pass ε Unit) r r :=
  enrolls_of_scopes_eq (fun _ => rfl) r

theorem enrolls_addNode (n : TypeNode) (r : Roll) : Enrolls (addNode n : Pass ε TypeId) r r :=
  enrolls_of_scopes_eq (fun _ => rfl) r

theorem enrolls_writtenType (t : TypeNote) (r : Roll) :
    Enrolls (writtenType t : Pass ε TypeId) r r :=
  enrolls_of_scopes_eq (fun _ => rfl) r

theorem enrolls_openScope (name : String) (r : Roll) :
    Enrolls (openScope name : Pass ε ScopeId) r (r.openScope name) := by
  intro s a s' h hs hr
  cases h
  subst hr
  refine ⟨fun sc hsc => ?_, ?_⟩
  · rcases List.mem_append.1 hsc with h | h
    · exact hs sc h
    · rw [List.mem_singleton.1 h]
      exact Scope.orderly_empty name
  · simp [Session.roll, Roll.openScope, Scope.empty]

theorem enrolls_leaveScope (f : ScopeError → ε) (r : Roll) :
    Enrolls (leaveScope f : Pass ε Unit) r r.leave := by
  intro s a s' h hs hr
  subst hr
  cases hst : s.scopes.stack with
  | nil =>
    rw [run_leaveScope_nil hst] at h
    cases h
  | cons k stack =>
    rw [run_leaveScope hst] at h
    cases h
    refine ⟨hs, ?_⟩
    simp only [Session.roll, Roll.leave, hst, List.tail_cons]

section

variable {r : Roll} {k : ScopeId} {stack : List ScopeId}

theorem scope_of_roll {s : Session} {name : String} {es : List Entry}
    (hk : k < r.scopes.length) (hr : s.roll = r.listing k name es) :
    ∃ sc, s.scopes.scopes[k]? = some sc ∧ sc.name = name ∧
      sc.order = (Entry.firsts es).map Entry.name := by
  have hget : (s.roll.scopes)[k]? = some (name, (Entry.firsts es).map Entry.name) := by
    rw [hr]
    exact List.getElem?_set_self hk
  rw [Session.roll, List.getElem?_map, Option.map_eq_some_iff] at hget
  obtain ⟨sc, hsc, heq⟩ := hget
  exact ⟨sc, hsc, congrArg Prod.fst heq, congrArg Prod.snd heq⟩

theorem enrolls_declareName (hstack : r.stack = k :: stack) (hk : k < r.scopes.length)
    (name : String) (es : List Entry) (role : Role) (x : Ident) (id : TypeId) (t : Ty) :
    Enrolls (declareName role x id) (r.listing k name es)
      (r.listing k name (es ++ [⟨x, role, t⟩])) := by
  intro s a s' h hs hr
  obtain ⟨sc, hsc, hname, horder⟩ := scope_of_roll hk hr
  have hst : s.scopes.stack = k :: stack := (congrArg Roll.stack hr).trans hstack
  have hmem : sc.declares x.name = true ↔ x.name ∈ es.map Entry.name := by
    rw [hs sc (List.mem_of_getElem? hsc), horder, Entry.mem_map_firsts]
  have hhere : s.scopes.declaresHere x.name = sc.declares x.name := by
    simp [ScopeTable.declaresHere, ScopeTable.declaresIn, ScopeTable.scope?, hst, hsc]
  have hfirsts : Entry.firsts (es ++ [⟨x, role, t⟩]) = if x.name ∈ es.map Entry.name
      then Entry.firsts es else Entry.firsts es ++ [⟨x, role, t⟩] := Entry.firsts_concat es _
  by_cases hd : sc.declares x.name = true
  · have hrun : (declareName role x id).run s =
        (.ok (), { s with diagnostics := s.diagnostics ++ [⟨x.mark, .redeclared x.name⟩] }) := by
      simp only [declareName, Attempt.run_bind, Attempt.run_get, hhere, hd, if_true]
      rfl
    rw [hrun] at h
    cases h
    rw [if_pos (hmem.1 hd)] at hfirsts
    refine ⟨hs, ?_⟩
    rw [Roll.listing, hfirsts]
    exact hr
  · rw [run_declareName (hhere.trans (Bool.eq_false_iff.2 hd)) hst] at h
    cases h
    rw [if_neg (fun hin => hd (hmem.2 hin))] at hfirsts
    refine ⟨fun sc' hsc' => ?_, ?_⟩
    · obtain ⟨i, hi⟩ := List.mem_iff_getElem?.1 hsc'
      rw [List.getElem?_modify, Option.map_eq_map, Option.map_eq_some_iff] at hi
      obtain ⟨old, hold, rfl⟩ := hi
      have horderly := hs old (List.mem_of_getElem? hold)
      split
      · exact horderly.declare x.name _
      · exact horderly
    · have hscopes : (s.scopes.scopes.modify k (·.declare x.name ⟨role, id⟩)).map
          (fun sc => (sc.name, sc.order)) =
          s.roll.scopes.set k (name, (Entry.firsts es).map Entry.name ++ [x.name]) := by
        refine List.ext_getElem? fun i => ?_
        rw [List.getElem?_map, List.getElem?_modify, List.getElem?_set']
        by_cases hi : k = i
        · subst hi
          simp [hsc, Session.roll, Scope.declare, hd, hname, horder]
        · simp [hi, Session.roll]
      rw [Session.roll, hscopes, hr, Roll.listing, Roll.listing, hfirsts, List.map_append]
      simp only [List.set_set]
      exact congrArg (Roll.mk _) (hst.trans hstack.symm)

theorem enrolls_declareParams (hstack : r.stack = k :: stack) (hk : k < r.scopes.length)
    (name : String) (ps : List Parameter) (es : List Entry) :
    Enrolls (declareParams ps) (r.listing k name es)
      (r.listing k name (es ++ ps.map Parameter.entry)) := by
  induction ps generalizing es with
  | nil =>
    rw [List.map_nil, List.append_nil]
    exact enrolls_pure [] _
  | cons p ps ih =>
    refine (enrolls_writtenType p.type _).bind fun id => ?_
    refine (enrolls_declareName hstack hk name es .parameter p.name id (.ofSpec p.type.spec)).bind
      fun _ => ?_
    have h := ih (es ++ [p.entry])
    rw [List.append_assoc] at h
    exact h.bind fun ids => enrolls_pure (id :: ids) _

theorem enrolls_declareNames (hstack : r.stack = k :: stack) (hk : k < r.scopes.length)
    (name : String) (id : TypeId) (t : Ty) (xs : List Ident) (es : List Entry) :
    Enrolls (declareNames id xs) (r.listing k name es)
      (r.listing k name (es ++ xs.map fun x => ⟨x, .variable, t⟩)) := by
  induction xs generalizing es with
  | nil =>
    rw [List.map_nil, List.append_nil]
    exact enrolls_pure () _
  | cons x xs ih =>
    refine (enrolls_declareName hstack hk name es .variable x id t).bind fun _ => ?_
    have h := ih (es ++ [⟨x, .variable, t⟩])
    rwa [List.append_assoc] at h

theorem enrolls_declareVariables (hstack : r.stack = k :: stack) (hk : k < r.scopes.length)
    (name : String) (ds : List Declaration) (es : List Entry) :
    Enrolls (declareVariables ds) (r.listing k name es)
      (r.listing k name (es ++ ds.flatMap Declaration.entries)) := by
  induction ds generalizing es with
  | nil =>
    rw [List.flatMap_nil, List.append_nil]
    exact enrolls_pure () _
  | cons d ds ih =>
    refine (enrolls_writtenType d.type _).bind fun id => ?_
    refine (enrolls_declareNames hstack hk name id (.ofSpec d.type.spec) d.names es).bind
      fun _ => ?_
    have h := ih (es ++ d.entries)
    rwa [List.append_assoc] at h

end

/-- The scope of a function lists its parameters and variables; the function's own name is listed
in the scope of the program, after this scope was left. -/
theorem enrolls_declareFunction (fs : List Function) (f : Function) :
    Enrolls (declareFunction f) (Roll.declared fs) (Roll.declared (fs ++ [f])) := by
  let u := (Roll.declared fs).openScope f.name.name
  have hlength : (Roll.declared fs).scopes.length = fs.length + 1 := by simp [Roll.declared]
  have hstack : u.stack = (fs.length + 1) :: [0] := congrArg (· :: [0]) hlength
  have hk : fs.length + 1 < u.scopes.length := by simp [u, Roll.openScope, hlength]
  have hnil : u.listing (fs.length + 1) f.name.name [] = u := by
    simp [u, Roll.listing, Roll.openScope, Roll.declared, Entry.firsts]
  have hzero : ((u.listing (fs.length + 1) f.name.name f.entries).leave).listing 0 globalName
      (fs.map Function.entry) = (u.listing (fs.length + 1) f.name.name f.entries).leave := by
    simp [u, Roll.listing, Roll.openScope, Roll.leave, Roll.declared]
  refine (enrolls_openScope f.name.name _).bind fun k => ?_
  refine (enrolls_setScope f.mark.id k _).bind fun _ => ?_
  have hparams := enrolls_declareParams hstack hk f.name.name f.params []
  rw [hnil] at hparams
  refine hparams.bind fun params => ?_
  refine (enrolls_declareVariables hstack hk f.name.name f.declarations _).bind fun _ => ?_
  have hrest : ∀ result, Enrolls (do
      leaveScope .scope
      let type ← addNode (.function params result)
      setType f.mark.id type
      declareName .function f.name type)
      (u.listing (fs.length + 1) f.name.name f.entries) (Roll.declared (fs ++ [f])) := by
    intro result
    refine (enrolls_leaveScope AnalysisError.scope _).bind fun _ => ?_
    refine (enrolls_addNode _ _).bind fun type => ?_
    refine (enrolls_setType f.mark.id type _).bind fun _ => ?_
    have houter : (u.listing (fs.length + 1) f.name.name f.entries).leave.stack = 0 :: [] := rfl
    have hpos : 0 < (u.listing (fs.length + 1) f.name.name f.entries).leave.scopes.length := by
      simp [u, Roll.listing, Roll.openScope, Roll.leave]
    have hname := enrolls_declareName houter hpos globalName (fs.map Function.entry) .function
      f.name type f.type
    rw [hzero] at hname
    rw [← Roll.declared_append]
    exact hname
  split
  · exact (enrolls_writtenType _ _).bind hrest
  · exact (enrolls_intern _ _).bind hrest

theorem enrolls_declareFunctions (gs fs : List Function) :
    Enrolls (declareFunctions gs) (Roll.declared fs) (Roll.declared (fs ++ gs)) := by
  induction gs generalizing fs with
  | nil =>
    rw [List.append_nil]
    exact enrolls_pure () _
  | cons g gs ih =>
    have h := ih (fs ++ [g])
    rw [List.append_assoc] at h
    exact (enrolls_declareFunction fs g).bind fun _ => h

theorem enrolls_declareProgram (p : Program) :
    Enrolls (declareProgram p) Session.fresh.roll (Roll.declared p.functions).leave := by
  refine (enrolls_openScope globalName _).bind fun k => ?_
  refine (enrolls_setScope p.id k _).bind fun _ => ?_
  exact (enrolls_declareFunctions p.functions []).bind fun _ => enrolls_leaveScope _ _

/-- The first pass in a fresh session: every scope lists the first entries of its names, and the
view of the session is the one in which the program is declared. -/
theorem declareProgram_fresh (p : Program) :
    ∃ s, (declareProgram p).run .fresh = (.ok (), s) ∧
      s.view = (Session.fresh.view.declared p.id p.functions).leave ∧
      s.scopes.scopes.map Scope.name = globalName :: p.functions.map (·.name.name) ∧
      s.listings = (Entry.firsts p.entries).map Entry.listed ::
        p.functions.map fun f => (Entry.firsts f.entries).map Entry.listed := by
  obtain ⟨_, s, hrun, hm, -⟩ := yields_declareProgram Session.sound_fresh p
  obtain ⟨-, hroll⟩ := enrolls_declareProgram p _ _ _ hrun Session.orderly_fresh rfl
  have hscopes : s.scopes.scopes.map (fun sc => (sc.name, sc.order)) =
      (Roll.declared p.functions).scopes := congrArg Roll.scopes hroll
  have hnames := congrArg (List.map Prod.fst) hscopes
  have horders := congrArg (List.map Prod.snd) hscopes
  simp only [List.map_map, Roll.declared, List.map_cons, Function.comp_def] at hnames horders
  have hmeanings : s.scopes.scopes.map (Scope.meanings s.types) =
      Entry.meaning? p.entries :: p.functions.map fun f => Entry.meaning? f.entries :=
    congrArg View.scopes hm.view
  have hlistings : s.listings =
      (p.entries :: p.functions.map Function.entries).map fun es =>
        (Entry.firsts es).map Entry.listed := by
    refine Scope.map_listing_eq ?_ ?_
    · rw [List.map_cons, List.map_map]
      exact horders
    · rw [List.map_cons, List.map_map]
      exact hmeanings
  rw [List.map_cons, List.map_map] at hlistings
  exact ⟨s, hrun, hm.view, hnames, hlistings⟩

end Pass

end Asl
