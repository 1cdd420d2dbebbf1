import Asl.Proofs.Session.View
import Asl.Proofs.Tree.Declared

/-!
# The first pass

Declaring a program appends a scope for the program and one for each function to the scopes of a
session, notes the types that are written, and reports the names that are declared again. The view
of the session after it is given in closed form, for any program and any sound session; nothing is
assumed of the identities of the nodes.
-/
namespace Asl

/-- Values that are written one after the other; the last one that is written counts. -/
def writeAll {α : Type} (g : NodeId → Option α) (ws : List (NodeId × α)) : NodeId → Option α :=
  ws.foldl (fun g w => Function.update g w.1 (some w.2)) g

section writeAll

variable {α : Type} {g : NodeId → Option α} {ws : List (NodeId × α)} {n : NodeId}

theorem writeAll_append (g : NodeId → Option α) (ws ws' : List (NodeId × α)) :
    writeAll g (ws ++ ws') = writeAll (writeAll g ws) ws' := List.foldl_append

theorem writeAll_of_notMem (h : n ∉ ws.map Prod.fst) : writeAll g ws n = g n := by
  induction ws generalizing g with
  | nil => rfl
  | cons w ws ih =>
    rw [List.map_cons, List.mem_cons, not_or] at h
    rw [writeAll, List.foldl_cons]
    exact (ih h.2).trans (Function.update_of_ne h.1 _ _)

theorem writeAll_of_mem (hn : (ws.map Prod.fst).Nodup) {a : α} (h : (n, a) ∈ ws) :
    writeAll g ws n = some a := by
  induction ws generalizing g with
  | nil => cases h
  | cons w ws ih =>
    rw [List.map_cons, List.nodup_cons] at hn
    rw [writeAll, List.foldl_cons]
    rcases List.mem_cons.1 h with rfl | h'
    · exact (writeAll_of_notMem hn.1).trans (Function.update_self _ _ _)
    · exact ih hn.2 h'

theorem isSome_writeAll : (writeAll g ws n).isSome ↔ (g n).isSome ∨ n ∈ ws.map Prod.fst := by
  induction ws generalizing g with
  | nil => simp [writeAll]
  | cons w ws ih =>
    have hhead : (Function.update g w.1 (some w.2) n).isSome ↔ (g n).isSome ∨ n = w.1 := by
      by_cases h : n = w.1 <;> simp [h]
    rw [writeAll, List.foldl_cons, List.map_cons, List.mem_cons, ← or_assoc, ← hhead]
    exact ih

theorem update_eq_some {m : NodeId} {a b : α} (h : Function.update g m (some a) n = some b) :
    n = m ∧ a = b ∨ n ≠ m ∧ g n = some b := by
  by_cases hn : n = m
  · subst hn
    rw [Function.update_self] at h
    exact Or.inl ⟨rfl, Option.some.inj h⟩
  · rw [Function.update_of_ne hn] at h
    exact Or.inr ⟨hn, h⟩

theorem writeAll_forall {P : α → Prop} (hg : ∀ n a, g n = some a → P a) (hws : ∀ w ∈ ws, P w.2)
    {a : α} (h : writeAll g ws n = some a) : P a := by
  induction ws generalizing g with
  | nil => exact hg n a h
  | cons w ws ih =>
    obtain ⟨hw, hws⟩ := List.forall_mem_cons.1 hws
    refine ih (fun m b hb => ?_) hws h
    rcases update_eq_some hb with ⟨-, rfl⟩ | ⟨-, hb⟩
    · exact hw
    · exact hg m b hb

theorem mem_of_writeAll {a : α} (h : writeAll g ws n = some a) : g n = some a ∨ (n, a) ∈ ws := by
  induction ws generalizing g with
  | nil => exact Or.inl h
  | cons w ws ih =>
    rcases ih h with hg | hmem
    · rcases update_eq_some hg with ⟨rfl, rfl⟩ | ⟨-, hg⟩
      · exact Or.inr List.mem_cons_self
      · exact Or.inl hg
    · exact Or.inr (List.mem_cons_of_mem _ hmem)

theorem writeAll_map {β : Type} {g' : NodeId → Option β} {F : α → β}
    (hg : ∀ n a, g n = some a → g' n = some (F a)) {a : α} (h : writeAll g ws n = some a) :
    writeAll g' (ws.map fun w => (w.1, F w.2)) n = some (F a) := by
  induction ws generalizing g g' with
  | nil => exact hg n a h
  | cons w ws ih =>
    refine ih (fun m b hb => ?_) h
    rcases update_eq_some hb with ⟨rfl, rfl⟩ | ⟨hm, hb⟩
    · exact Function.update_self _ _ _
    · exact (Function.update_of_ne hm _ _).trans (hg m b hb)

theorem writeAll_mono {g' : NodeId → Option α} (hg : ∀ n a, g n = some a → g' n = some a) {a : α}
    (h : writeAll g ws n = some a) : writeAll g' ws n = some a := by
  have hmap := writeAll_map (F := fun a => a) hg h
  rwa [List.map_id'] at hmap

end writeAll

namespace View

/-- A view whose scope `k` has come to declare some entries while some types were noted. -/
def declaring (v : View) (k : ScopeId) (es : List Entry) (ws : List (NodeId × Ty)) : View :=
  { v with
    scopes := v.scopes.set k (Entry.meaning? es)
    typeOf := writeAll v.typeOf ws
    diagnostics := v.diagnostics ++ Entry.redeclared [] es }

theorem setType_declaring (v : View) (k : ScopeId) (es : List Entry) (ws : List (NodeId × Ty))
    (n : NodeId) (t : Ty) :
    (v.declaring k es ws).setType n t = v.declaring k es (ws ++ [(n, t)]) := by
  simp only [declaring, setType, writeAll_append]
  rfl

theorem update_meaning? {es : List Entry} (e : Entry) (h : Entry.meaning? es e.name = none) :
    Function.update (Entry.meaning? es) e.name (some (e.role, e.type)) =
      Entry.meaning? (es ++ [e]) := by
  funext x
  rw [Entry.meaning?_append]
  by_cases hx : x = e.name
  · subst hx
    rw [Function.update_self, h]
    simp [Entry.meaning?]
  · rw [Function.update_of_ne hx]
    simp [Entry.meaning?, Ne.symm hx]

theorem declare_eq {v : View} {k : ScopeId} {stack : List ScopeId} {es : List Entry}
    (hstack : v.stack = k :: stack) (hk : v.scopes[k]? = some (Entry.meaning? es)) (role : Role)
    (x : Ident) (t : Ty) :
    v.declare role x t = { v with
      scopes := v.scopes.set k (Entry.meaning? (es ++ [⟨x, role, t⟩]))
      diagnostics := v.diagnostics ++
        if x.name ∈ es.map Entry.name then [⟨x.mark, .redeclared x.name⟩] else [] } := by
  have hhere : v.declaresHere x.name = (Entry.meaning? es x.name).isSome := by
    simp [declaresHere, hstack, hk]
  rw [declare, hhere]
  by_cases hd : (Entry.meaning? es x.name).isSome = true
  · have hmem := (Entry.isSome_meaning? es x.name).1 hd
    obtain ⟨m, hm⟩ := Option.isSome_iff_exists.1 hd
    have hsame : Entry.meaning? (es ++ [⟨x, role, t⟩]) = Entry.meaning? es := by
      funext y
      rw [Entry.meaning?_append]
      by_cases hy : x.name = y
      · subst hy
        rw [hm, Option.some_or]
      · simp [Entry.meaning?, Entry.name, hy]
    have hset : v.scopes.set k (Entry.meaning? es) = v.scopes := by
      obtain ⟨hlt, hget⟩ := List.getElem?_eq_some_iff.1 hk
      rw [← hget, List.set_getElem_self]
    rw [if_pos hd]
    simp only [report, hsame, hset, if_pos hmem]
  · have hmem : x.name ∉ es.map Entry.name := fun h => hd ((Entry.isSome_meaning? es x.name).2 h)
    have hnone : Entry.meaning? es x.name = none := Option.not_isSome_iff_eq_none.1 hd
    have hu := update_meaning? ⟨x, role, t⟩ hnone
    have hmodify : v.scopes.modify k (fun ms => Function.update ms x.name (some (role, t))) =
        v.scopes.set k (Entry.meaning? (es ++ [⟨x, role, t⟩])) := by
      refine List.ext_getElem? fun i => ?_
      rw [List.getElem?_modify, List.getElem?_set']
      by_cases hi : k = i
      · subst hi
        simp only [hk, if_true, ← hu]
        rfl
      · simp [hi]
    rw [if_neg hd]
    simp only [bind, hstack, hmodify, if_neg hmem, List.append_nil]

theorem declare_declaring {v : View} {k : ScopeId} {stack : List ScopeId}
    (hstack : v.stack = k :: stack) (hk : k < v.scopes.length) (es : List Entry)
    (ws : List (NodeId × Ty)) (role : Role) (x : Ident) (t : Ty) :
    (v.declaring k es ws).declare role x t = v.declaring k (es ++ [⟨x, role, t⟩]) ws := by
  have hget : (v.declaring k es ws).scopes[k]? = some (Entry.meaning? es) := by
    simp [declaring, hk]
  have hstack' : (v.declaring k es ws).stack = k :: stack := hstack
  rw [declare_eq hstack' hget]
  simp [declaring, Entry.redeclared_append, Entry.redeclared, Entry.name]

theorem declaring_nil {v : View} {k : ScopeId} (hk : v.scopes[k]? = some fun _ => none) :
    v.declaring k [] [] = v := by
  obtain ⟨hlt, hget⟩ := List.getElem?_eq_some_iff.1 hk
  have hset : v.scopes.set k (Entry.meaning? []) = v.scopes := by
    rw [show Entry.meaning? [] = fun _ => none from rfl, ← hget, List.set_getElem_self]
  simp only [declaring, hset, Entry.redeclared, List.append_nil]
  rfl

def declared (b : View) (id : NodeId) (fs : List Function) : View :=
  { b with
    scopes := b.scopes ++ Entry.meaning? (fs.map Function.entry) ::
      fs.map fun f => Entry.meaning? f.entries
    stack := b.scopes.length :: b.stack
    scopeOf := writeAll b.scopeOf
      ((id, b.scopes.length) :: Function.notedScopes (b.scopes.length + 1) fs)
    typeOf := writeAll b.typeOf (fs.flatMap Function.notedTypes)
    diagnostics := b.diagnostics ++ Function.allRedeclared [] fs }

end View

namespace Pass

open Session (Moves)

variable {ε : Type} {s : Session}

theorem yields_writtenType (hs : s.Sound) (t : TypeNote) :
    Yields (writtenType t : Pass ε TypeId) s (s.view.setType t.mark.id (.ofSpec t.spec))
      fun id s' => s'.Means id (.ofSpec t.spec) := by
  refine (yields_intern hs _).bind fun id s' hm hid => ?_
  rw [← hm.view]
  refine (yields_setType hm.sound t.mark.id hid).bind fun _ s'' hm' _ => ?_
  exact yields_pure hm'.sound hm'.view id (hm'.means hid)

theorem means_mono {s s' : Session} {v : View} (h : s.Moves s' v) {ids : List TypeId}
    {ts : List Ty} (hm : List.Forall₂ s.Means ids ts) : List.Forall₂ s'.Means ids ts :=
  hm.imp fun _ _ => h.means

section

variable {v : View} {k : ScopeId} {stack : List ScopeId}

theorem stack_declaring (hstack : v.stack = k :: stack) (es : List Entry)
    (ws : List (NodeId × Ty)) : (v.declaring k es ws).stack ≠ [] := by
  have h : (v.declaring k es ws).stack = v.stack := rfl
  rw [h, hstack]
  exact List.cons_ne_nil _ _

theorem yields_declareParams (hstack : v.stack = k :: stack) (hk : k < v.scopes.length)
    (ps : List Parameter) (hs : s.Sound) (es : List Entry) (ws : List (NodeId × Ty))
    (hv : s.view = v.declaring k es ws) :
    Yields (declareParams ps) s
      (v.declaring k (es ++ ps.map Parameter.entry)
        (ws ++ ps.map fun p => (p.type.mark.id, .ofSpec p.type.spec)))
      fun ids s' => List.Forall₂ s'.Means ids (ps.map fun p => .ofSpec p.type.spec) := by
  induction ps generalizing s es ws with
  | nil => exact yields_pure hs (by simpa using hv) [] .nil
  | cons p ps ih =>
    refine (yields_writtenType hs p.type).bind fun id s₁ hm₁ hid => ?_
    have hv₁ : s₁.view = v.declaring k es (ws ++ [(p.type.mark.id, .ofSpec p.type.spec)]) := by
      rw [hm₁.view, hv, View.setType_declaring]
    have hne : s₁.view.stack ≠ [] := by
      rw [hv₁]
      exact stack_declaring hstack _ _
    refine (yields_declareName hm₁.sound .parameter p.name hid hne).bind fun _ s₂ hm₂ _ => ?_
    have hv₂ := hm₂.view
    rw [hv₁, View.declare_declaring hstack hk] at hv₂
    refine (ih hm₂.sound _ _ hv₂).bind fun ids s₃ hm₃ hids => ?_
    have hv₃ := hm₃.view
    simp only [List.append_assoc, List.singleton_append] at hv₃
    exact yields_pure hm₃.sound hv₃ (id :: ids) (.cons (hm₃.means (hm₂.means hid)) hids)

theorem yields_declareNames (hstack : v.stack = k :: stack) (hk : k < v.scopes.length)
    (xs : List Ident) {id : TypeId} {t : Ty} (hs : s.Sound) (hid : s.Means id t)
    (es : List Entry) (ws : List (NodeId × Ty)) (hv : s.view = v.declaring k es ws) :
    Yields (declareNames id xs) s
      (v.declaring k (es ++ xs.map fun x => ⟨x, .variable, t⟩) ws) fun _ _ => True := by
  induction xs generalizing s es with
  | nil => exact yields_pure hs (by simpa using hv) () trivial
  | cons x xs ih =>
    have hne : s.view.stack ≠ [] := by
      rw [hv]
      exact stack_declaring hstack _ _
    refine (yields_declareName hs .variable x hid hne).bind fun _ s₁ hm₁ _ => ?_
    have hv₁ := hm₁.view
    rw [hv, View.declare_declaring hstack hk] at hv₁
    have h := ih hm₁.sound (hm₁.means hid) _ hv₁
    simpa only [List.map_cons, List.append_assoc, List.singleton_append] using h

theorem yields_declareVariables (hstack : v.stack = k :: stack) (hk : k < v.scopes.length)
    (ds : List Declaration) (hs : s.Sound) (es : List Entry) (ws : List (NodeId × Ty))
    (hv : s.view = v.declaring k es ws) :
    Yields (declareVariables ds) s
      (v.declaring k (es ++ ds.flatMap Declaration.entries)
        (ws ++ ds.map fun d => (d.type.mark.id, .ofSpec d.type.spec))) fun _ _ => True := by
  induction ds generalizing s es ws with
  | nil => exact yields_pure hs (by simpa using hv) () trivial
  | cons d ds ih =>
    refine (yields_writtenType hs d.type).bind fun id s₁ hm₁ hid => ?_
    have hv₁ : s₁.view = v.declaring k es (ws ++ [(d.type.mark.id, .ofSpec d.type.spec)]) := by
      rw [hm₁.view, hv, View.setType_declaring]
    refine (yields_declareNames hstack hk d.names hm₁.sound hid _ _ hv₁).bind fun _ s₂ hm₂ _ => ?_
    have h := ih hm₂.sound _ _ hm₂.view
    simpa only [List.map_cons, List.flatMap_cons, List.append_assoc, List.singleton_append,
      Declaration.entries] using h

end

theorem allRedeclared_append (taken : List String) (fs gs : List Function) :
    Function.allRedeclared taken (fs ++ gs) = Function.allRedeclared taken fs ++
      Function.allRedeclared ((fs.map (·.name.name)).reverse ++ taken) gs := by
  induction fs generalizing taken with
  | nil => rfl
  | cons f fs ih =>
    simp only [List.cons_append, Function.allRedeclared, ih, List.map_cons, List.reverse_cons,
      List.append_assoc, List.nil_append]

theorem declared_append (b : View) (id : NodeId) (fs : List Function) (f : Function) :
    let k := (b.declared id fs).scopes.length
    let inside := ((b.declared id fs).openScope.setScope f.mark.id k).declaring k f.entries
      f.writtenTypes
    (inside.leave.setType f.mark.id f.type).declare .function f.name f.type =
      b.declared id (fs ++ [f]) := by
  intro k inside
  have hk : k = b.scopes.length + 1 + fs.length := by
    simp [k, View.declared]
    omega
  have hscopes : inside.scopes = (b.declared id fs).scopes ++ [Entry.meaning? f.entries] := by
    simp [inside, View.declaring, View.setScope, View.openScope, k]
  have hglobal : (inside.leave.setType f.mark.id f.type).scopes[b.scopes.length]? =
      some (Entry.meaning? (fs.map Function.entry)) := by
    change inside.scopes[b.scopes.length]? = _
    rw [hscopes]
    simp [View.declared]
  have hstack : (inside.leave.setType f.mark.id f.type).stack = b.scopes.length :: b.stack := rfl
  rw [View.declare_eq hstack hglobal]
  have hfinal : (inside.leave.setType f.mark.id f.type).scopes = inside.scopes := rfl
  have hset : ((b.declared id fs).scopes ++ [Entry.meaning? f.entries]).set b.scopes.length
      (Entry.meaning? (fs.map Function.entry ++ [⟨f.name, .function, f.type⟩])) =
      (b.declared id (fs ++ [f])).scopes := by
    simp [View.declared, Function.entry]
  rw [hfinal, hscopes, hset]
  simp only [View.declared, inside, View.leave, View.setType, View.declaring, View.setScope,
    View.openScope]
  congr 1
  · simp [Function.notedScopes, List.zipIdx_append, writeAll, hk]
  · simp [Function.notedTypes, writeAll]
  · simp [allRedeclared_append, Function.allRedeclared, Function.redeclared, Function.entry,
      Entry.name]

theorem yields_resultType {α : Type} {rest : TypeId → Pass ε α} (hs : s.Sound)
    (note : Option TypeNote) {v w : View} {k : ScopeId} {es : List Entry}
    {ws : List (NodeId × Ty)} {Q : α → Session → Prop} (hv : s.view = v.declaring k es ws)
    (hrest : ∀ r s', s.Moves s' (v.declaring k es
        (ws ++ (note.map fun t => (t.mark.id, Ty.ofSpec t.spec)).toList)) →
      s'.Means r (note.elim .void fun t => .ofSpec t.spec) → Yields (rest r) s' w Q) :
    Yields (match note with
      | some t => writtenType t >>= rest
      | none => intern .void >>= rest) s w Q := by
  cases note with
  | none =>
    refine (yields_intern hs .void).bind fun r s' hm hr => hrest r s' ?_ hr
    rw [hv] at hm
    simpa using hm
  | some t =>
    refine (yields_writtenType hs t).bind fun r s' hm hr => hrest r s' ?_ hr
    rw [hv, View.setType_declaring] at hm
    exact hm

theorem yields_declareFunction {b : View} {id : NodeId} {fs : List Function} (f : Function)
    (hs : s.Sound) (hv : s.view = b.declared id fs) :
    Yields (declareFunction f) s (b.declared id (fs ++ [f])) fun _ _ => True := by
  rw [← declared_append]
  have hglobal : (b.declared id fs).stack ≠ [] := List.cons_ne_nil _ _
  generalize b.declared id fs = v at hv hglobal
  subst hv
  let k := s.view.scopes.length
  let u := s.view.openScope.setScope f.mark.id k
  have hstack : u.stack = k :: s.view.stack := rfl
  have hnone : u.scopes[k]? = some fun _ => none := by simp [u, k, View.setScope, View.openScope]
  have hk : k < u.scopes.length := (List.getElem?_eq_some_iff.1 hnone).1
  refine (yields_openScope hs f.name.name).bind fun k' s₁ hm₁ hk' => ?_
  subst hk'
  refine (yields_setScope hm₁.sound f.mark.id _).bind fun _ s₂ hm₂ _ => ?_
  have hv₂ : s₂.view = u.declaring k [] [] := by
    rw [hm₂.view, hm₁.view, View.declaring_nil hnone]
  refine (yields_declareParams hstack hk f.params hm₂.sound _ _ hv₂).bind fun ps s₃ hm₃ hps => ?_
  refine (yields_declareVariables hstack hk f.declarations hm₃.sound _ _ hm₃.view).bind
    fun _ s₄ hm₄ _ => ?_
  refine yields_resultType hm₄.sound f.result hm₄.view fun r s₅ hm₅ hr => ?_
  have hentries : [] ++ f.params.map Parameter.entry ++ f.declarations.flatMap Declaration.entries =
      f.entries := rfl
  rw [hentries] at hm₅
  have hne : s₅.view.stack ≠ [] := by
    rw [hm₅.view]
    exact stack_declaring hstack _ _
  refine (yields_leaveScope hm₅.sound AnalysisError.scope hne).bind fun _ s₆ hm₆ _ => ?_
  have hps₆ := means_mono hm₆ (means_mono hm₅ (means_mono hm₄ hps))
  refine (yields_addFunction hm₆.sound hps₆ (hm₆.means hr)).bind fun t s₇ hm₇ ht => ?_
  refine (yields_setType hm₇.sound f.mark.id ht).bind fun _ s₈ hm₈ _ => ?_
  have hv₈ : s₈.view =
      ((u.declaring k f.entries f.writtenTypes).leave).setType f.mark.id f.type := by
    rw [hm₈.view, hm₇.view, hm₆.view, hm₅.view]
    rfl
  have hne₈ : s₈.view.stack ≠ [] := by
    rw [hv₈]
    exact hglobal
  have h := yields_declareName hm₈.sound .function f.name (hm₈.means ht) hne₈
  rw [hv₈] at h
  exact h

theorem yields_declareFunctions {b : View} {id : NodeId} (gs : List Function)
    {fs : List Function} (hs : s.Sound) (hv : s.view = b.declared id fs) :
    Yields (declareFunctions gs) s (b.declared id (fs ++ gs)) fun _ _ => True := by
  induction gs generalizing s fs with
  | nil => exact yields_pure hs (by simpa using hv) () trivial
  | cons g gs ih =>
    refine (yields_declareFunction g hs hv).bind fun _ s₁ hm₁ _ => ?_
    have h := ih hm₁.sound hm₁.view
    rwa [List.append_assoc] at h

theorem yields_declareProgram (hs : s.Sound) (p : Program) :
    Yields (declareProgram p) s (s.view.declared p.id p.functions).leave fun _ _ => True := by
  refine (yields_openScope hs globalName).bind fun k s₁ hm₁ hk => ?_
  subst hk
  refine (yields_setScope hm₁.sound p.id _).bind fun _ s₂ hm₂ _ => ?_
  have hv₂ : s₂.view = s.view.declared p.id [] := by
    rw [hm₂.view, hm₁.view]
    simp only [View.declared, View.setScope, View.openScope, Function.allRedeclared,
      List.append_nil]
    rfl
  refine (yields_declareFunctions p.functions hm₂.sound hv₂).bind fun _ s₃ hm₃ _ => ?_
  have hne : s₃.view.stack ≠ [] := by
    rw [hm₃.view]
    exact List.cons_ne_nil _ _
  have h := yields_leaveScope hm₃.sound AnalysisError.scope hne
  rw [hm₃.view] at h
  exact h

end Pass

end Asl
