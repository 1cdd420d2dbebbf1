import Asl.Proofs.Token.Written
import Asl.Proofs.Tree.Declared
import Asl.Proofs.Tree.Parsed

/-!
# Trees with other names

A renaming puts a name in the place of every identifier of a tree, where it is declared and where it
is used, and changes nothing else. The names of a tree are those of all its identifiers. If it was
read from a text, its names are identifiers and no keywords.
-/
namespace Asl

def Ident.rename (ρ : String → String) (x : Ident) : Ident := ⟨x.mark, ρ x.name⟩

mutual

def Expr.rename (ρ : String → String) : Expr → Expr
  | .literal m value => .literal m value
  | .name m x => .name m (x.rename ρ)
  | .element m base index => .element m (base.rename ρ) (index.rename ρ)
  | .call m callee args => .call m (callee.rename ρ) (Expr.renameAll ρ args)
  | .paren m inner => .paren m (inner.rename ρ)
  | .unary m op operand => .unary m op (operand.rename ρ)
  | .binary m op lhs rhs => .binary m op (lhs.rename ρ) (rhs.rename ρ)
  | .max m args => .max m (Expr.renameAll ρ args)

def Expr.renameAll (ρ : String → String) : List Expr → List Expr
  | [] => []
  | e :: es => e.rename ρ :: Expr.renameAll ρ es

end

def Target.rename (ρ : String → String) : Target → Target
  | .name m x => .name m (x.rename ρ)
  | .element m base index => .element m (base.rename ρ) (index.rename ρ)

mutual

def Stmt.rename (ρ : String → String) : Stmt → Stmt
  | .assign m target value => .assign m (target.rename ρ) (value.rename ρ)
  | .ifThen m condition body => .ifThen m (condition.rename ρ) (Stmt.renameAll ρ body)
  | .ifElse m condition body otherwise =>
      .ifElse m (condition.rename ρ) (Stmt.renameAll ρ body) (Stmt.renameAll ρ otherwise)
  | .while m condition body => .while m (condition.rename ρ) (Stmt.renameAll ρ body)
  | .for m control range body =>
      .for m (control.rename ρ) (Expr.renameAll ρ range) (Stmt.renameAll ρ body)
  | .call m callee args => .call m (callee.rename ρ) (Expr.renameAll ρ args)
  | .read m target => .read m (target.rename ρ)
  | .write m value => .write m (value.rename ρ)
  | .writeText m raw => .writeText m raw
  | .ret m value => .ret m (value.map (Expr.rename ρ))

def Stmt.renameAll (ρ : String → String) : List Stmt → List Stmt
  | [] => []
  | s :: ss => s.rename ρ :: Stmt.renameAll ρ ss

end

def Parameter.rename (ρ : String → String) (q : Parameter) : Parameter := ⟨q.name.rename ρ, q.type⟩

def Declaration.rename (ρ : String → String) (d : Declaration) : Declaration :=
  ⟨d.names.map (Ident.rename ρ), d.type⟩

def Function.rename (ρ : String → String) (f : Function) : Function where
  mark := f.mark
  name := f.name.rename ρ
  params := f.params.map (Parameter.rename ρ)
  result := f.result
  declarations := f.declarations.map (Declaration.rename ρ)
  body := Stmt.renameAll ρ f.body

def Program.rename (ρ : String → String) (p : Program) : Program :=
  ⟨p.id, p.functions.map (Function.rename ρ)⟩

mutual

def Expr.names : Expr → List String
  | .literal _ _ => []
  | .name _ x => [x.name]
  | .element _ base index => base.name :: index.names
  | .call _ callee args => callee.name :: Expr.namesAll args
  | .paren _ inner => inner.names
  | .unary _ _ operand => operand.names
  | .binary _ _ lhs rhs => lhs.names ++ rhs.names
  | .max _ args => Expr.namesAll args

def Expr.namesAll : List Expr → List String
  | [] => []
  | e :: es => e.names ++ Expr.namesAll es

end

def Target.names : Target → List String
  | .name _ x => [x.name]
  | .element _ base index => base.name :: index.names

mutual

def Stmt.names : Stmt → List String
  | .assign _ target value => target.names ++ value.names
  | .ifThen _ condition body => condition.names ++ Stmt.namesAll body
  | .ifElse _ condition body otherwise =>
      condition.names ++ (Stmt.namesAll body ++ Stmt.namesAll otherwise)
  | .while _ condition body => condition.names ++ Stmt.namesAll body
  | .for _ control range body => control.name :: (Expr.namesAll range ++ Stmt.namesAll body)
  | .call _ callee args => callee.name :: Expr.namesAll args
  | .read _ target => target.names
  | .write _ value => value.names
  | .writeText _ _ => []
  | .ret _ none => []
  | .ret _ (some value) => value.names

def Stmt.namesAll : List Stmt → List String
  | [] => []
  | s :: ss => s.names ++ Stmt.namesAll ss

end

def Function.names (f : Function) : List String :=
  f.name.name :: (f.entries.map Entry.name ++ Stmt.namesAll f.body)

def Program.names (p : Program) : List String := p.functions.flatMap Function.names

theorem Expr.namesAll_eq_flatMap (es : List Expr) : Expr.namesAll es = es.flatMap Expr.names := by
  induction es with
  | nil => rfl
  | cons e es ih => rw [Expr.namesAll, ih, List.flatMap_cons]

theorem Stmt.namesAll_eq_flatMap (ss : List Stmt) : Stmt.namesAll ss = ss.flatMap Stmt.names := by
  induction ss with
  | nil => rfl
  | cons s ss ih => rw [Stmt.namesAll, ih, List.flatMap_cons]

variable {ρ : String → String}

theorem Expr.mark_rename (e : Expr) : (e.rename ρ).mark = e.mark := by
  cases e <;> rfl

theorem Target.mark_rename (x : Target) : (x.rename ρ).mark = x.mark := by
  cases x <;> rfl

theorem Expr.length_renameAll (es : List Expr) : (Expr.renameAll ρ es).length = es.length := by
  induction es with
  | nil => rfl
  | cons e es ih => rw [Expr.renameAll, List.length_cons, ih, List.length_cons]

theorem Expr.idsAll_rename {es : List Expr} (h : ∀ e ∈ es, (e.rename ρ).ids = e.ids) :
    Expr.idsAll (Expr.renameAll ρ es) = Expr.idsAll es := by
  induction es with
  | nil => rfl
  | cons e es ih =>
    obtain ⟨he, hes⟩ := List.forall_mem_cons.1 h
    rw [Expr.renameAll, Expr.idsAll, he, ih hes, Expr.idsAll]

theorem Expr.ids_rename (e : Expr) : (e.rename ρ).ids = e.ids := by
  induction e using Expr.ind with
  | literal m v => rfl
  | name m x => rfl
  | element m base index ih => rw [rename, ids, ih, ids, Ident.rename]
  | call m callee args ih => rw [rename, ids, idsAll_rename ih, ids, Ident.rename]
  | paren m inner ih => rw [rename, ids, ih, ids]
  | unary m op operand ih => rw [rename, ids, ih, ids]
  | binary m op lhs rhs ihl ihr => rw [rename, ids, ihl, ihr, ids]
  | max m args ih => rw [rename, ids, idsAll_rename ih, ids]

theorem Target.ids_rename (x : Target) : (x.rename ρ).ids = x.ids := by
  cases x with
  | name m x => rfl
  | element m base index => rw [rename, ids, Expr.ids_rename, ids, Ident.rename]

theorem Stmt.idsAll_rename {ss : List Stmt} (h : ∀ s ∈ ss, (s.rename ρ).ids = s.ids) :
    Stmt.idsAll (Stmt.renameAll ρ ss) = Stmt.idsAll ss := by
  induction ss with
  | nil => rfl
  | cons s ss ih =>
    obtain ⟨hs, hss⟩ := List.forall_mem_cons.1 h
    rw [Stmt.renameAll, Stmt.idsAll, hs, ih hss, Stmt.idsAll]

theorem Stmt.ids_rename (s : Stmt) : (s.rename ρ).ids = s.ids := by
  have hargs (es : List Expr) : Expr.idsAll (Expr.renameAll ρ es) = Expr.idsAll es :=
    Expr.idsAll_rename fun e _ => e.ids_rename
  induction s using Stmt.ind with
  | assign m target value => rw [rename, ids, Target.ids_rename, Expr.ids_rename, ids]
  | ifThen m condition body ih => rw [rename, ids, Expr.ids_rename, idsAll_rename ih, ids]
  | ifElse m condition body otherwise ihb iho =>
    rw [rename, ids, Expr.ids_rename, idsAll_rename ihb, idsAll_rename iho, ids]
  | while_ m condition body ih => rw [rename, ids, Expr.ids_rename, idsAll_rename ih, ids]
  | for_ m control range body ih =>
    rw [rename, ids, hargs, idsAll_rename ih, ids, Ident.rename]
  | call m callee args => rw [rename, ids, hargs, ids, Ident.rename]
  | read m target => rw [rename, ids, Target.ids_rename, ids]
  | write m value => rw [rename, ids, Expr.ids_rename, ids]
  | writeText m raw => rfl
  | ret m value =>
    cases value with
    | none => rfl
    | some value => rw [rename, Option.map_some, ids, Expr.ids_rename, ids]

theorem Function.ids_rename (f : Function) : (f.rename ρ).ids = f.ids := by
  have hbody : Stmt.idsAll (Stmt.renameAll ρ f.body) = Stmt.idsAll f.body :=
    Stmt.idsAll_rename fun s _ => s.ids_rename
  have hparams : (f.params.map (Parameter.rename ρ)).flatMap Parameter.ids =
      f.params.flatMap Parameter.ids := by
    rw [List.flatMap_map]
    rfl
  have hdecls : (f.declarations.map (Declaration.rename ρ)).flatMap Declaration.ids =
      f.declarations.flatMap Declaration.ids := by
    rw [List.flatMap_map]
    refine congrArg (List.flatMap · f.declarations) (funext fun d => ?_)
    rw [Declaration.ids, Declaration.rename, List.map_map, Declaration.ids]
    rfl
  rw [ids, rename, hbody, hparams, hdecls, ids, Ident.rename]

theorem Program.ids_rename (p : Program) : (p.rename ρ).ids = p.ids := by
  rw [ids, rename, List.flatMap_map, ids]
  exact congrArg (p.id :: List.flatMap · p.functions) (funext fun f => f.ids_rename)

def Entry.rename (ρ : String → String) (e : Entry) : Entry := { e with ident := e.ident.rename ρ }

namespace Function

theorem entries_rename (f : Function) : (f.rename ρ).entries = f.entries.map (Entry.rename ρ) := by
  rw [entries, entries, rename, List.map_append, List.map_map, List.map_map, List.map_flatMap,
    List.flatMap_map]
  refine congrArg₂ (· ++ ·) rfl (congrArg (List.flatMap · f.declarations) (funext fun d => ?_))
  rw [Declaration.entries, Declaration.rename, List.map_map, Declaration.entries, List.map_map]
  rfl

theorem resultType_rename (f : Function) : (f.rename ρ).resultType = f.resultType := rfl

theorem type_rename (f : Function) : (f.rename ρ).type = f.type := by
  rw [type, type, resultType_rename, rename, List.map_map]
  rfl

end Function

theorem Program.entries_rename (p : Program) :
    (p.rename ρ).entries = p.entries.map (Entry.rename ρ) := by
  rw [entries, entries, rename, List.map_map, List.map_map]
  refine List.map_congr_left fun f _ => ?_
  rw [Function.comp_apply, Function.entry, Function.type_rename]
  rfl

theorem Entry.meaning?_rename {es : List Entry} {x : String}
    (h : ∀ e ∈ es, ρ e.name = ρ x → e.name = x) :
    meaning? (es.map (Entry.rename ρ)) (ρ x) = meaning? es x := by
  induction es with
  | nil => rfl
  | cons e es ih =>
    obtain ⟨he, hes⟩ := List.forall_mem_cons.1 h
    have hname : (e.rename ρ).name = ρ e.name := rfl
    rw [List.map_cons, meaning?, meaning?, hname, ih hes]
    by_cases heq : e.name = x
    · rw [if_pos heq, if_pos (congrArg ρ heq)]
      rfl
    · rw [if_neg heq, if_neg fun h => heq (he h)]

theorem Expr.mem_kindsAll {es : List Expr} {x : String}
    (h : ∀ e ∈ es, ∀ x ∈ e.names, TokenKind.ident x ∈ e.kinds) (hx : x ∈ Expr.namesAll es) :
    TokenKind.ident x ∈ commaSeparated (es.map Expr.kinds) := by
  rw [Expr.namesAll_eq_flatMap] at hx
  obtain ⟨e, he, hx⟩ := List.mem_flatMap.1 hx
  exact mem_commaSeparated (List.mem_map_of_mem he) (h e he x hx)

theorem Expr.mem_kinds_of_mem_names (e : Expr) : ∀ x ∈ e.names, TokenKind.ident x ∈ e.kinds := by
  induction e using Expr.ind with
  | literal m v => simp [names]
  | name m x => simp [names, kinds]
  | element m base index ih =>
    intro x hx
    rcases List.mem_cons.1 hx with rfl | hx
    · exact List.mem_cons_self
    · simp [kinds, inBrackets, ih x hx]
  | call m callee args ih =>
    intro x hx
    rcases List.mem_cons.1 hx with rfl | hx
    · exact List.mem_cons_self
    · simp [kinds, inParens, Expr.kindsAll_eq_map, Expr.mem_kindsAll ih hx]
  | paren m inner ih =>
    intro x hx
    simp [kinds, inParens, ih x hx]
  | unary m op operand ih => exact fun x hx => List.mem_cons_of_mem _ (ih x hx)
  | binary m op lhs rhs ihl ihr =>
    intro x hx
    rcases List.mem_append.1 hx with hx | hx
    · simp [kinds, ihl x hx]
    · simp [kinds, ihr x hx]
  | max m args ih =>
    intro x hx
    simp [kinds, inParens, Expr.kindsAll_eq_map, Expr.mem_kindsAll ih hx]

theorem Target.mem_kinds_of_mem_names (x : Target) :
    ∀ y ∈ x.names, TokenKind.ident y ∈ x.kinds := by
  intro y hy
  cases x with
  | name m x =>
    cases List.mem_singleton.1 hy
    exact List.mem_cons_self
  | element m base index =>
    rcases List.mem_cons.1 hy with rfl | hy
    · exact List.mem_cons_self
    · simp [kinds, inBrackets, index.mem_kinds_of_mem_names y hy]

theorem Stmt.mem_kindsAll {ss : List Stmt} {x : String}
    (h : ∀ s ∈ ss, ∀ x ∈ s.names, TokenKind.ident x ∈ s.kinds) (hx : x ∈ Stmt.namesAll ss) :
    TokenKind.ident x ∈ Stmt.kindsAll ss := by
  rw [Stmt.namesAll_eq_flatMap] at hx
  obtain ⟨s, hs, hx⟩ := List.mem_flatMap.1 hx
  rw [Stmt.kindsAll_eq_flatMap]
  exact List.mem_flatMap.2 ⟨s, hs, h s hs x hx⟩

theorem Stmt.mem_kinds_of_mem_names (s : Stmt) : ∀ x ∈ s.names, TokenKind.ident x ∈ s.kinds := by
  have hargs (es : List Expr) {x : String} (hx : x ∈ Expr.namesAll es) :
      TokenKind.ident x ∈ commaSeparated (es.map Expr.kinds) :=
    Expr.mem_kindsAll (fun e _ => e.mem_kinds_of_mem_names) hx
  induction s using Stmt.ind with
  | assign m target value =>
    intro x hx
    rcases List.mem_append.1 hx with hx | hx
    · simp [kinds, target.mem_kinds_of_mem_names x hx]
    · simp [kinds, value.mem_kinds_of_mem_names x hx]
  | ifThen m condition body ih =>
    intro x hx
    rcases List.mem_append.1 hx with hx | hx
    · simp [kinds, condition.mem_kinds_of_mem_names x hx]
    · simp [kinds, mem_kindsAll ih hx]
  | ifElse m condition body otherwise ihb iho =>
    intro x hx
    rcases List.mem_append.1 hx with hx | hx
    · simp [kinds, condition.mem_kinds_of_mem_names x hx]
    · rcases List.mem_append.1 hx with hx | hx
      · simp [kinds, mem_kindsAll ihb hx]
      · simp [kinds, mem_kindsAll iho hx]
  | while_ m condition body ih =>
    intro x hx
    rcases List.mem_append.1 hx with hx | hx
    · simp [kinds, condition.mem_kinds_of_mem_names x hx]
    · simp [kinds, mem_kindsAll ih hx]
  | for_ m control range body ih =>
    intro x hx
    rcases List.mem_cons.1 hx with rfl | hx
    · simp [kinds]
    · rcases List.mem_append.1 hx with hx | hx
      · simp [kinds, inParens, hargs range hx]
      · simp [kinds, mem_kindsAll ih hx]
  | call m callee args =>
    intro x hx
    rcases List.mem_cons.1 hx with rfl | hx
    · exact List.mem_cons_self
    · simp [kinds, inParens, hargs args hx]
  | read m target =>
    intro x hx
    simp [kinds, target.mem_kinds_of_mem_names x hx]
  | write m value =>
    intro x hx
    simp [kinds, value.mem_kinds_of_mem_names x hx]
  | writeText m raw => simp [names]
  | ret m value =>
    cases value with
    | none => simp [names]
    | some value =>
      intro x hx
      simp [kinds, value.mem_kinds_of_mem_names x hx]

theorem Function.mem_kinds_of_mem_names (f : Function) :
    ∀ x ∈ f.names, TokenKind.ident x ∈ f.kinds := by
  intro x hx
  rcases List.mem_cons.1 hx with rfl | hx
  · simp [kinds]
  rcases List.mem_append.1 hx with hx | hx
  · obtain ⟨e, he, rfl⟩ := List.mem_map.1 hx
    rcases List.mem_append.1 he with he | he
    · obtain ⟨q, hq, rfl⟩ := List.mem_map.1 he
      exact f.mem_kinds_of_param hq
    · obtain ⟨d, hd, he⟩ := List.mem_flatMap.1 he
      obtain ⟨y, hy, rfl⟩ := List.mem_map.1 he
      exact f.mem_kinds_of_local hd hy
  · have hbody := Stmt.mem_kindsAll (fun s _ => s.mem_kinds_of_mem_names) hx
    simp [kinds, hbody]

theorem Program.written_of_parse {source : String} {p : Program} (h : parse source = .ok p) :
    ∀ k ∈ p.kinds, k.Written := by
  obtain ⟨ts, hts, hp⟩ := exists_tokens_of_parse h
  rw [(Program.kinds_of_ofTokens hp).1]
  intro k hk
  obtain ⟨t, ht, rfl⟩ := List.mem_map.1 hk
  exact tokens_written hts t ht

theorem Program.names_free {source : String} {p : Program} (h : parse source = .ok p) :
    ∀ x ∈ p.names, FreeName x := by
  intro x hx
  obtain ⟨f, hf, hx⟩ := List.mem_flatMap.1 hx
  have hmem : TokenKind.ident x ∈ p.kinds :=
    List.mem_flatMap.2 ⟨f, hf, f.mem_kinds_of_mem_names x hx⟩
  exact Program.written_of_parse h _ hmem

end Asl
