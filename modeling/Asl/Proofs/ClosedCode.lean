import Asl.Proofs.Accepted
import Asl.Proofs.Meaning.Programs

/-!
# Compiled code is closed

A subroutine of compiled code names nothing but its own parameters and variables, and the
subroutines that it calls. An array stands only where it is indexed, where its address is taken,
where a reference to it is loaded, or where it is pushed.
-/
namespace Asl

section

variable {E : Surroundings} {T : Typing} {o : Operand} {t : Ty}

inductive Operand.IsScalar (E : Surroundings) : Operand → Prop
  | temp (n : Nat) : IsScalar E (.temp n)
  | name {x : String} {role : Role} {t : Ty} : E.meaning x = some (role, t) → Primitive t →
      IsScalar E (.name x)
  | result : Primitive E.result → IsScalar E .result

/-- What an instruction may take an operand as: an array that is owned may be indexed and have its
address taken, one that is a parameter may be loaded and pushed, and a scalar may stand anywhere. -/
inductive Operand.Suits (E : Surroundings) : Use → Operand → Prop
  | scalar {u : Use} {o : Operand} : o.IsScalar E → Suits E u o
  | owned {u : Use} {x : String} {n : Nat} {t : Ty} :
      E.meaning x = some (.variable, .array n t) → u ∈ [.base, .array] → Suits E u (.name x)
  | reference {u : Use} {x : String} {n : Nat} {t : Ty} :
      E.meaning x = some (.parameter, .array n t) → u ∈ [.source, .argument] → Suits E u (.name x)

theorem Operand.HasType.isScalar (h : o.HasType E T t) (ht : Primitive t) : o.IsScalar E := by
  cases h with
  | temp => exact .temp _
  | scalar hx _ => exact .name hx ht
  | reference => cases ht
  | result hr => exact .result hr

theorem Operand.HasType.suits (h : o.HasType E T t) (ht : Primitive t) (u : Use) :
    o.Suits E u :=
  .scalar (h.isScalar ht)

theorem Operand.IsBase.suits {n : Nat} (h : o.IsBase E T (.array n t)) : o.Suits E .base := by
  cases h with
  | temp => exact .scalar (.temp _)
  | owned hx => exact .owned hx (by simp)

/-- Names that mean values have types that can be written. -/
def Surroundings.Proper (E : Surroundings) : Prop :=
  ∀ x role t, E.meaning x = some (role, t) → t.OfValue

theorem Ty.OfValue.elem {n : Nat} (h : (Ty.array n t).OfValue) : Primitive t :=
  Ty.Declared.elem (.value h)

theorem Operand.IsBase.elem (hE : E.Proper) {n : Nat} (h : o.IsBase E T (.array n t)) :
    Primitive t := by
  cases h with
  | @temp k _ hk =>
    cases k with
    | zero => cases hk
    | succ k => exact (T.values _ (List.mem_of_getElem? hk)).elem
  | owned hx => exact (hE _ _ _ hx).elem

theorem BinaryInstr.HasType.primitives {op : BinaryInstr} {t u r : Ty} (h : op.HasType t u r) :
    Primitive t ∧ Primitive u ∧ Primitive r := by
  cases h with
  | whole => exact ⟨.int, .int, .int⟩
  | float => exact ⟨.float, .float, .float⟩
  | equal ht => exact ⟨ht, ht, .bool⟩
  | order _ ht =>
    simp only [List.mem_cons, List.not_mem_nil, or_false] at ht
    rcases ht with rfl | rfl
    · exact ⟨.int, .int, .bool⟩
    · exact ⟨.char, .char, .bool⟩
  | compare => exact ⟨.float, .float, .bool⟩
  | logic => exact ⟨.bool, .bool, .bool⟩

theorem UnaryInstr.HasType.primitives {op : UnaryInstr} {t r : Ty} (h : op.HasType t r) :
    Primitive t ∧ Primitive r := by
  cases h with
  | whole => exact ⟨.int, .int⟩
  | float => exact ⟨.float, .float⟩
  | not => exact ⟨.bool, .bool⟩
  | toFloat => exact ⟨.int, .float⟩

theorem Constant.HasType.primitive {c : Constant} (h : c.HasType t) : Primitive t := by
  cases h <;> constructor

theorem Channel.Carries.primitive {c : Channel} (h : c.Carries t) : Primitive t := by
  cases h <;> constructor

theorem Instr.Typed.suits (hE : E.Proper) {i : Instr} {σ σ' : List Cell} (h : i.Typed E T σ σ') :
    ∀ q ∈ i.uses, q.2.Suits E q.1 := by
  cases h with
  | binary hop hl hr hd =>
    obtain ⟨ht, hu, hres⟩ := hop.primitives
    exact List.forall_mem_cons.2 ⟨hd.suits hres _,
      List.forall_mem_cons.2 ⟨hl.suits ht _, List.forall_mem_singleton.2 (hr.suits hu _)⟩⟩
  | unary hop hs hd =>
    obtain ⟨ht, hres⟩ := hop.primitives
    exact List.forall_mem_cons.2 ⟨hd.suits hres _, List.forall_mem_singleton.2 (hs.suits ht _)⟩
  | constant hc hd => exact List.forall_mem_singleton.2 (hd.suits hc.primitive _)
  | copy ht hs hd =>
    exact List.forall_mem_cons.2 ⟨hd.suits ht _, List.forall_mem_singleton.2 (hs.suits ht _)⟩
  | load hx _ =>
    exact List.forall_mem_cons.2 ⟨.scalar (.temp _),
      List.forall_mem_singleton.2 (.reference hx (by simp))⟩
  | loadElement hb hi hd =>
    exact List.forall_mem_cons.2 ⟨hd.suits (hb.elem hE) _,
      List.forall_mem_cons.2 ⟨hb.suits, List.forall_mem_singleton.2 (hi.suits .int _)⟩⟩
  | storeElement hb hi hs =>
    exact List.forall_mem_cons.2 ⟨hb.suits,
      List.forall_mem_cons.2 ⟨hi.suits .int _,
        List.forall_mem_singleton.2 (hs.suits (hb.elem hE) _)⟩⟩
  | address hx _ =>
    exact List.forall_mem_cons.2 ⟨.scalar (.temp _),
      List.forall_mem_singleton.2 (.owned hx (by simp))⟩
  | push hs =>
    refine List.forall_mem_singleton.2 ?_
    cases hs with
    | temp => exact .scalar (.temp _)
    | scalar hx ht => exact .scalar (.name hx ht)
    | reference hx => exact .reference hx (by simp)
    | result hr => exact .scalar (.result hr)
  | pop ht hd => exact List.forall_mem_singleton.2 (hd.suits ht _)
  | read ha hd => exact List.forall_mem_singleton.2 (hd.suits ha.primitive _)
  | write ha hs => exact List.forall_mem_singleton.2 (hs.suits ha.primitive _)
  | jumpUnless hc _ => exact List.forall_mem_singleton.2 (hc.suits .bool _)
  | _ => rintro _ ⟨⟩

end

theorem Code.Typed.instr {E : Surroundings} {T : Typing} {code : Code} {σ σ' : List Cell}
    (h : Code.Typed E T σ code σ') : ∀ i ∈ code, ∃ ρ ρ', i.Typed E T ρ ρ' := by
  induction h with
  | nil => rintro _ ⟨⟩
  | cons hi _ ih => exact List.forall_mem_cons.2 ⟨⟨_, _, hi⟩, ih⟩

theorem Instr.Typed.signature {E : Surroundings} {T : Typing} {name : String}
    {σ σ' : List Cell} (h : Instr.Typed E T σ (.call name) σ') :
    ∃ params t, E.signature name = some (params, t) := by
  cases h with
  | callProcedure hs => exact ⟨_, _, hs⟩
  | callFunction hs _ => exact ⟨_, _, hs⟩

def TypeSpec.size : TypeSpec → Nat
  | .base _ => 1
  | .array n _ => n

theorem Ty.cells_ofSpec (s : TypeSpec) : (Ty.ofSpec s).cells = s.size := by
  rcases s with b | ⟨n, b⟩
  · cases b <;> rfl
  · cases b <;> exact Nat.mul_one n

def Subroutine.names (sub : Subroutine) : List String :=
  sub.params ++ sub.locals.map Variable.name

structure Subroutine.Closed (a : Assembly) (f : Function) (sub : Subroutine) : Prop where
  params : sub.params = (if f.result = none then [] else [resultName]) ++
    f.params.map (·.name.name)
  locals : sub.locals = f.declarations.flatMap fun d =>
    d.names.map fun x => ⟨x.name, d.type.spec.size⟩
  distinct : sub.names.Nodup
  operands : ∀ i ∈ sub.code, ∀ u o, (u, o) ∈ i.uses →
    (∃ n, o = .temp n) ∨ o.text ∈ sub.names
  arrays : ∀ i ∈ sub.code, ∀ u x, (u, .name x) ∈ i.uses → ∀ role n t,
    Entry.meaning? f.entries x = some (role, .array n t) →
      (role = .variable ∧ u ∈ [.base, .array]) ∨ (role = .parameter ∧ u ∈ [.source, .argument])
  calls : ∀ name, .call name ∈ sub.code → ∃ callee ∈ a.subroutines, callee.name = name

namespace Subroutine.Heads

variable {f : Function} {sub : Subroutine}

theorem names_eq (h : sub.Heads f) : sub.names =
    (if f.type.isProcedure then [] else [resultName]) ++ f.entries.map Entry.name := by
  have hlocals : sub.locals.map Variable.name =
      (f.declarations.flatMap Declaration.entries).map Entry.name := by
    rw [h.locals, List.map_flatMap, List.map_flatMap]
    congr 1
    funext d
    rw [Declaration.entries, List.map_map, List.map_map]
    rfl
  have hparams : f.params.map (·.name.name) = (f.params.map Parameter.entry).map Entry.name := by
    rw [List.map_map]
    rfl
  rw [Subroutine.names, h.params, hlocals, hparams, List.append_assoc, ← List.map_append]
  rfl

theorem mem_names_of_meaning (h : sub.Heads f) {x : String} {m : Role × Ty}
    (hx : Entry.meaning? f.entries x = some m) : x ∈ sub.names := by
  obtain ⟨role, t⟩ := m
  obtain ⟨e, he, hname, -, -⟩ := Entry.exists_of_meaning? hx
  rw [h.names_eq, ← hname]
  exact List.mem_append_right _ (List.mem_map_of_mem he)

theorem resultName_mem (h : sub.Heads f) (hr : f.resultType ≠ .void) :
    resultName ∈ sub.names := by
  rw [h.names_eq, f.isProcedure_type, decide_eq_false hr]
  exact List.mem_cons_self

theorem nodup_names (h : sub.Heads f) (hf : f.Named)
    (hinside : (f.entries.map Entry.name).Nodup) : sub.names.Nodup := by
  rw [h.names_eq]
  split
  · exact hinside
  · refine List.nodup_cons.2 ⟨fun hmem => ?_, hinside⟩
    obtain ⟨e, he, hname⟩ := List.mem_map.1 hmem
    exact ne_resultName_of_isIdentifier (hf.entries e he) hname

end Subroutine.Heads

namespace Program.Compiles

variable {p : Program} {s : Session} {a : Assembly} {f : Function} {sub : Subroutine}

theorem suits (hf : p.Lowered s f sub) : ∀ i ∈ sub.code, ∀ q ∈ i.uses,
    q.2.Suits (p.surroundings f) q.1 := by
  intro i hi
  obtain ⟨T, htyped⟩ := hf.typed
  obtain ⟨σ, σ', hinstr⟩ := htyped.instr i hi
  exact hinstr.suits fun x role t hx => (Entry.role_of_meaning? hx).2

theorem mem_names (hf : p.Lowered s f sub) {u : Use} {o : Operand}
    (h : o.Suits (p.surroundings f) u) : (∃ n, o = .temp n) ∨ o.text ∈ sub.names := by
  cases h with
  | scalar ho =>
    cases ho with
    | temp n => exact Or.inl ⟨n, rfl⟩
    | name hx _ => exact Or.inr (hf.heads.mem_names_of_meaning hx)
    | result hr => exact Or.inr (hf.heads.resultName_mem hr.declared.ne_void)
  | owned hx _ => exact Or.inr (hf.heads.mem_names_of_meaning hx)
  | reference hx _ => exact Or.inr (hf.heads.mem_names_of_meaning hx)

theorem exists_callee (h : p.Compiles s a) (hf : p.Lowered s f sub) {name : String}
    (hcall : .call name ∈ sub.code) : ∃ callee ∈ a.subroutines, callee.name = name := by
  obtain ⟨T, htyped⟩ := hf.typed
  obtain ⟨σ, σ', hinstr⟩ := htyped.instr _ hcall
  obtain ⟨params, t, hsignature⟩ := hinstr.signature
  obtain ⟨g, hg, -⟩ := Option.map_eq_some_iff.1 hsignature
  obtain ⟨callee, hcallee, -⟩ := Subroutine.Heads.find?
    (h.subroutines.imp fun _ _ hf => hf.heads) hg
  have hname := List.find?_some hcallee
  exact ⟨callee, List.mem_of_find?_eq_some hcallee, of_decide_eq_true hname⟩

theorem closed (h : p.Compiles s a) (hf : p.Lowered s f sub) : sub.Closed a f where
  params := by
    rw [hf.heads.params, f.isProcedure_type]
    simp only [decide_eq_true_eq, f.result_eq_none_iff]
  locals := by
    rw [hf.heads.locals]
    simp only [Ty.cells_ofSpec]
  distinct := hf.heads.nodup_names (h.named f hf.mem) (h.wellTyped.inside f hf.mem)
  operands i hi u o hu := mem_names hf (suits hf i hi _ hu)
  arrays i hi u x hu role n t hx := by
    have hsuits : (Operand.name x).Suits (p.surroundings f) u := suits hf i hi _ hu
    cases hsuits with
    | scalar ho =>
      cases ho with
      | name hy ht =>
        cases hx.symm.trans hy
        cases ht
    | owned hy hu =>
      cases hx.symm.trans hy
      exact Or.inl ⟨rfl, hu⟩
    | reference hy hu =>
      cases hx.symm.trans hy
      exact Or.inr ⟨rfl, hu⟩
  calls name hcall := h.exists_callee hf hcall

end Program.Compiles

/-- Compiled code is closed: the subroutines are those of the functions in their order, with names
of their own, and each names only what it declares and calls only what there is. -/
theorem compile_is_closed {source : String} {a : Assembly} (h : compile source = .ok a) :
    ∃ p, parse source = .ok p ∧
      a.subroutines.map Subroutine.name = p.functions.map (·.name.name) ∧
        (a.subroutines.map Subroutine.name).Nodup ∧
          List.Forall₂ (fun f sub => sub.Closed a f) p.functions a.subroutines := by
  obtain ⟨p, s, hp, -, hcompiles⟩ := compile_accepted h
  have hnames : a.subroutines.map Subroutine.name = p.functions.map (·.name.name) := by
    refine List.forall₂_eq_eq_eq ▸ ?_
    rw [List.forall₂_map_left_iff, List.forall₂_map_right_iff]
    exact hcompiles.subroutines.flip.imp fun sub f hf => hf.heads.name
  refine ⟨p, hp, hnames, hnames ▸ hcompiles.wellTyped.functions, ?_⟩
  exact hcompiles.subroutines.imp fun f sub hf => hcompiles.closed hf

theorem surveySource_is_closed : ∃ a p, compile surveySource = .ok a ∧
    parse surveySource = .ok p ∧
      a.subroutines.map Subroutine.name = p.functions.map (·.name.name) ∧
        (a.subroutines.map Subroutine.name).Nodup ∧
          List.Forall₂ (fun f sub => sub.Closed a f) p.functions a.subroutines := by
  obtain ⟨a, ha⟩ := exists_code_surveySource
  obtain ⟨p, hp, hclosed⟩ := compile_is_closed ha
  exact ⟨a, p, ha, hp, hclosed⟩

end Asl
