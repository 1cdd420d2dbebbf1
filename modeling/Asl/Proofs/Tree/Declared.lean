import Asl.Proofs.Tree.Nodes
import Mathlib.Data.List.Basic

/-!
# What a program declares

A function declares its parameters and variables inside, and the program declares its functions. A
name means the first thing of that name that the function declares inside, and else the first
function of that name. Each later declaration of a name is a fault. All of this is read off the
tree; no table is involved.
-/
namespace Asl

structure Entry where
  ident : Ident
  role : Role
  type : Ty

namespace Entry

def name (e : Entry) : String := e.ident.name

/-- What the first entry of a name makes of it. -/
def meaning? : List Entry → String → Option (Role × Ty)
  | [], _ => none
  | e :: es, x => if e.name = x then some (e.role, e.type) else meaning? es x

/-- The faults of declaring entries in their order where some names are taken. -/
def redeclared (taken : List String) : List Entry → List Diagnostic
  | [] => []
  | e :: es =>
      (if e.name ∈ taken then [⟨e.ident.mark, .redeclared e.name⟩] else []) ++
        redeclared (e.name :: taken) es

theorem meaning?_append (es fs : List Entry) (x : String) :
    meaning? (es ++ fs) x = (meaning? es x).or (meaning? fs x) := by
  induction es with
  | nil => rfl
  | cons e es ih =>
    rw [List.cons_append, meaning?, meaning?]
    split
    · rfl
    · exact ih

theorem isSome_meaning? (es : List Entry) (x : String) :
    (meaning? es x).isSome = true ↔ x ∈ es.map name := by
  induction es with
  | nil => simp [meaning?]
  | cons e es ih =>
    rw [meaning?, List.map_cons, List.mem_cons]
    split
    · rename_i h
      simp [h]
    · rename_i h
      rw [ih]
      exact ⟨Or.inr, fun h' => h'.resolve_left fun he => h he.symm⟩

theorem exists_of_meaning? {es : List Entry} {x : String} {role : Role} {t : Ty}
    (h : meaning? es x = some (role, t)) : ∃ e ∈ es, e.name = x ∧ e.role = role ∧ e.type = t := by
  induction es with
  | nil => cases h
  | cons e es ih =>
    rw [meaning?] at h
    split at h
    · rename_i hname
      cases h
      exact ⟨e, List.mem_cons_self, hname, rfl, rfl⟩
    · obtain ⟨e', he', hrest⟩ := ih h
      exact ⟨e', List.mem_cons_of_mem _ he', hrest⟩

theorem redeclared_append (taken : List String) (es fs : List Entry) :
    redeclared taken (es ++ fs) =
      redeclared taken es ++ redeclared ((es.map name).reverse ++ taken) fs := by
  induction es generalizing taken with
  | nil => rfl
  | cons e es ih =>
    simp only [List.cons_append, redeclared, ih, List.map_cons, List.reverse_cons,
      List.append_assoc, List.nil_append]

theorem redeclared_eq_nil_iff (taken : List String) (es : List Entry) :
    redeclared taken es = [] ↔ (es.map name).Nodup ∧ ∀ e ∈ es, e.name ∉ taken := by
  induction es generalizing taken with
  | nil => simp [redeclared]
  | cons e es ih =>
    rw [redeclared, List.append_eq_nil_iff, ih, List.map_cons, List.nodup_cons,
      List.forall_mem_cons]
    by_cases h : e.name ∈ taken
    · simp [h]
    · simp only [h, if_false, true_and, List.mem_cons, not_or, not_false_eq_true, List.mem_map,
        not_exists, not_and]
      constructor
      · rintro ⟨hn, hd⟩
        exact ⟨⟨fun e' he' => (hd e' he').1, hn⟩, fun e' he' => (hd e' he').2⟩
      · rintro ⟨⟨hne, hn⟩, hd⟩
        exact ⟨hn, fun e' he' => ⟨hne e' he', hd e' he'⟩⟩

end Entry

def Parameter.entry (p : Parameter) : Entry := ⟨p.name, .parameter, .ofSpec p.type.spec⟩

def Declaration.entries (d : Declaration) : List Entry :=
  d.names.map fun x => ⟨x, .variable, .ofSpec d.type.spec⟩

namespace Function

def entries (f : Function) : List Entry :=
  f.params.map Parameter.entry ++ f.declarations.flatMap Declaration.entries

def resultType (f : Function) : Ty := f.result.elim .void fun t => .ofSpec t.spec

def type (f : Function) : Ty := .function (f.params.map fun p => .ofSpec p.type.spec) f.resultType

def entry (f : Function) : Entry := ⟨f.name, .function, f.type⟩

def writtenTypes (f : Function) : List (NodeId × Ty) :=
  f.params.map (fun p => (p.type.mark.id, .ofSpec p.type.spec)) ++
    f.declarations.map (fun d => (d.type.mark.id, .ofSpec d.type.spec)) ++
    (f.result.map fun t => (t.mark.id, Ty.ofSpec t.spec)).toList

/-- The types that declaring a function notes: those that it writes, and its own. -/
def notedTypes (f : Function) : List (NodeId × Ty) := f.writtenTypes ++ [(f.mark.id, f.type)]

/-- The scopes that declaring functions notes, where the first one gets scope `k`. -/
def notedScopes (k : Nat) (fs : List Function) : List (NodeId × Nat) :=
  (fs.zipIdx k).map fun x => (x.1.mark.id, x.2)

theorem isProcedure_type (f : Function) : f.type.isProcedure = decide (f.resultType = .void) := by
  unfold type
  cases f.resultType <;> rfl

theorem params_type (f : Function) : f.type.params = f.params.map fun p => .ofSpec p.type.spec :=
  rfl

theorem result_type (f : Function) : f.type.result = f.resultType := rfl

/-- The faults of a function's declarations, where functions of some names stand before it. -/
def redeclared (taken : List String) (f : Function) : List Diagnostic :=
  Entry.redeclared [] f.entries ++
    if f.name.name ∈ taken then [⟨f.name.mark, .redeclared f.name.name⟩] else []

def allRedeclared (taken : List String) : List Function → List Diagnostic
  | [] => []
  | f :: fs => f.redeclared taken ++ allRedeclared (f.name.name :: taken) fs

end Function

namespace Program

def entries (p : Program) : List Entry := p.functions.map Function.entry

def meaning (p : Program) (f : Function) (x : String) : Option (Role × Ty) :=
  (Entry.meaning? f.entries x).or (Entry.meaning? p.entries x)

def context (p : Program) (f : Function) : Context := ⟨p.meaning f, f.resultType⟩

/-- Whether the first function `main` takes nothing and gives nothing back. -/
def hasMain (p : Program) : Bool :=
  match p.functions.find? (·.name.name = "main") with
  | some f => f.params.isEmpty && f.resultType = .void
  | none => false

/-- All that is wrong with a program, in the order in which it is found. -/
def diagnostics (p : Program) : List Diagnostic :=
  Function.allRedeclared [] p.functions ++
    p.functions.flatMap (fun f => (Stmt.judgeAll (p.context f) f.body).diagnostics) ++
    if p.hasMain then [] else [⟨⟨p.id, 0, 0⟩, .noMain⟩]

end Program

theorem Entry.meaning?_entry (fs : List Function) (x : String) :
    Entry.meaning? (fs.map Function.entry) x =
      (fs.find? (·.name.name = x)).map fun f => (Role.function, f.type) := by
  induction fs with
  | nil => rfl
  | cons f fs ih =>
    rw [List.map_cons, Entry.meaning?, List.find?_cons]
    by_cases h : f.name.name = x
    · simp [h, Function.entry, Entry.name]
    · simp [h, Function.entry, Entry.name, ← ih]

def Function.header (f : Function) : Function := { f with body := [] }

/-- Programs that differ in the statements of their functions at most. -/
def Program.SameHeaders (p q : Program) : Prop :=
  p.functions.map Function.header = q.functions.map Function.header

theorem Function.allRedeclared_header (taken : List String) (fs : List Function) :
    allRedeclared taken (fs.map header) = allRedeclared taken fs := by
  induction fs generalizing taken with
  | nil => rfl
  | cons f fs ih =>
    rw [List.map_cons, allRedeclared, allRedeclared]
    exact congrArg (f.redeclared taken ++ ·) (ih _)

namespace Program.SameHeaders

variable {p q : Program}

theorem entries (h : p.SameHeaders q) : p.entries = q.entries := by
  have hentry : Function.entry = Function.entry ∘ Function.header := rfl
  unfold Program.entries
  rw [hentry, ← List.map_map, h, List.map_map]

theorem context (h : p.SameHeaders q) {f g : Function} (hf : f.header = g.header) :
    p.context f = q.context g := by
  have hlocals : f.header.entries = g.header.entries := congrArg Function.entries hf
  have hresult : f.header.resultType = g.header.resultType := congrArg Function.resultType hf
  change f.entries = g.entries at hlocals
  change f.resultType = g.resultType at hresult
  unfold Program.context Program.meaning
  rw [hlocals, hresult, h.entries]

theorem allRedeclared (h : p.SameHeaders q) (taken : List String) :
    Function.allRedeclared taken p.functions = Function.allRedeclared taken q.functions := by
  rw [← Function.allRedeclared_header, h, Function.allRedeclared_header]

theorem hasMain (h : p.SameHeaders q) : p.hasMain = q.hasMain := by
  have hname : (fun f : Function => decide (f.name.name = "main")) =
      (fun f => decide (f.name.name = "main")) ∘ Function.header := rfl
  have hfind : (p.functions.find? (·.name.name = "main")).map Function.header =
      (q.functions.find? (·.name.name = "main")).map Function.header := by
    rw [hname, ← List.find?_map, h, List.find?_map]
  unfold Program.hasMain
  cases hp : p.functions.find? (·.name.name = "main") with
  | none =>
    rw [hp, Option.map_none, eq_comm, Option.map_eq_none_iff] at hfind
    rw [hfind]
  | some f =>
    rw [hp, Option.map_some, eq_comm, Option.map_eq_some_iff] at hfind
    obtain ⟨g, hg, hheader⟩ := hfind
    have hparams : g.header.params = f.header.params := congrArg Function.params hheader
    have hresult : g.header.resultType = f.header.resultType := congrArg Function.resultType hheader
    change g.params = f.params at hparams
    change g.resultType = f.resultType at hresult
    simp only [hg, hparams, hresult]

end Program.SameHeaders

end Asl
