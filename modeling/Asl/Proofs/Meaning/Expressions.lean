import Asl.Proofs.Lowering.Typed
import Asl.Proofs.Meaning.Following

/-!
# The code of an expression follows its evaluation

The code of an expression of a type leaves the machine with an operand that stands for the value of
the expression: a scalar is in the register of the operand, and an array is a name, whose reference
is known or lies in the frame.
-/
namespace Asl

variable {D : Domain}

/-- A machine for the code of a function in a context. -/
structure Machine.Suits (M : Machine D) (Γ : Context) : Prop where
  labels : M.code.labels.Nodup
  names : ∀ x m, Γ.meaning x = some m → isIdentifier x = true
  headers : ∀ x role params t, Γ.meaning x = some (role, .function params t) →
    ∃ sub, M.assembly.find? x = some sub ∧ sub.arity = params.length ∧
      sub.hasSlot = decide (t ≠ .void)

inductive Config.Stands (I : Interpretation D) (Γ : Context) (c : Config D) :
    Operand → Ty → D.Value → Prop
  | value {o : Operand} {t : Ty} {v : D.Value} : Primitive t → c.get o = v → Stands I Γ c o t v
  | owned {x : String} {m : Nat} {t : Ty} : Γ.meaning x = some (.variable, .array m t) →
      Stands I Γ c (.name x) (.array m t) (I.owned x)
  | reference {x : String} {m : Nat} {t : Ty} : Γ.meaning x = some (.parameter, .array m t) →
      Stands I Γ c (.name x) (.array m t) (c.registers x)
  | function {o : Operand} {params : List Ty} {t : Ty} {v : D.Value} :
      Stands I Γ c o (.function params t) v

/-- What is known of an operand of a type while code is made: a scalar is kept from now on, and an
array is a name. -/
inductive Operand.Held (Γ : Context) (lo : Nat) : Operand → Ty → Prop
  | value {o : Operand} {t : Ty} : Primitive t → o.Stable lo → Held Γ lo o t
  | array {x : String} {role : Role} {m : Nat} {t : Ty} :
      Γ.meaning x = some (role, .array m t) → Held Γ lo (.name x) (.array m t)
  | function {o : Operand} {params : List Ty} {t : Ty} : Held Γ lo o (.function params t)

theorem Operand.Held.stable {Γ : Context} {lo : Nat} {o : Operand} {t : Ty} (h : o.Held Γ lo t)
    (ht : Primitive t) : o.Stable lo := by
  cases h with
  | value _ h => exact h
  | array => cases ht
  | function => cases ht

/-- Code that was made between two counts follows an evaluation, and leaves an operand for it. -/
structure Machine.Evaluates (M : Machine D) (Γ : Context) (t : Ty) (act : Act D D.Value)
    (c : Counters) (r : Code × Operand) (c' : Counters) : Prop where
  le : c.temps ≤ c'.temps
  held : r.2.Held Γ c'.temps t
  follows : ∀ n cfg s, Code.At M.code cfg.pc r.1 → cfg.Shows s →
    M.Follows n cfg (act.run s) fun v u d =>
      Advanced c.temps r.1 cfg s d u ∧ d.Stands M.interpretation Γ r.2 t v

section

variable {E : Surroundings} {Γ : Context} {Λ : Lowering} {M : Machine D}

theorem Config.Stands.get {I : Interpretation D} {c : Config D} {o : Operand} {t : Ty}
    {v : D.Value} (h : c.Stands I Γ o t v) (ht : Primitive t) : c.get o = v := by
  cases h with
  | value _ h => exact h
  | owned => cases ht
  | reference => cases ht
  | function => cases ht

theorem Ty.join_pair (t u : Ty) : Ty.join [t, u] = t.common u := by
  simp [Ty.join, Ty.common]

namespace Lower

theorem numbers_eq (t : Ty) : numbers t = t.arithmetic := by cases t <;> rfl

theorem toFloat_follows (M : Machine D) (v : Operand) (t : Ty) (c : Counters) :
    Gives (toFloat v t) c fun r c' => c.temps ≤ c'.temps ∧
      (v.Stable c.temps → r.2.Stable c'.temps) ∧
      ∀ n cfg s, Code.At M.code cfg.pc r.1 → cfg.Shows s →
        M.Follows n cfg ((M.interpretation.convert t .float (cfg.get v)).run s)
          fun y u d => Advanced c.temps r.1 cfg s d u ∧ d.get r.2 = y := by
  by_cases ht : t = .int
  · rw [toFloat, if_pos ht]
    refine (gives_freshTemp c).bind fun o c' hres => gives_pure ?_
    obtain ⟨ho, hc'⟩ := hres
    subst ho hc'
    refine ⟨Nat.le_succ _, fun _ => .temp (Nat.le_refl _), fun n cfg s hat hs => ?_⟩
    rw [Interpretation.convert, if_pos ⟨rfl, ht⟩]
    exact Machine.computes hat (by rintro ⟨⟩) rfl (Nat.lt_succ_self _) hs
  · rw [toFloat, if_neg ht]
    refine gives_pure ⟨Nat.le_refl _, id, fun n cfg s hat hs => ?_⟩
    rw [Interpretation.convert, if_neg fun h => ht h.2]
    exact Machine.follows_pure ⟨.refl _ hs, rfl⟩

theorem coerce_follows (M : Machine D) (v : Operand) (t expected : Ty) (c : Counters) :
    Gives (coerce v t expected) c fun r c' => c.temps ≤ c'.temps ∧
      (v.Stable c.temps → r.2.Stable c'.temps) ∧
      ∀ n cfg s, Code.At M.code cfg.pc r.1 → cfg.Shows s →
        M.Follows n cfg ((M.interpretation.convert t expected (cfg.get v)).run s)
          fun y u d => Advanced c.temps r.1 cfg s d u ∧ d.get r.2 = y := by
  by_cases hf : expected = .float
  · subst hf
    exact toFloat_follows M v t c
  · rw [coerce, if_neg hf]
    refine gives_pure ⟨Nat.le_refl _, id, fun n cfg s hat hs => ?_⟩
    rw [Interpretation.convert, if_neg fun h => hf h.1]
    exact Machine.follows_pure ⟨.refl _ hs, rfl⟩

theorem binary_follows {op : BinaryInstr} {k lo n : Nat} {a b : Operand} {rest : Code}
    {cfg : Config D} {s : State D}
    (hat : Code.At M.code cfg.pc (.binary op (.temp k) a b :: rest)) (hk : lo < k)
    (hs : cfg.Shows s) :
    M.Follows n cfg ((M.interpretation.binaryAct op (cfg.get a) (cfg.get b)).run s) fun v u d =>
      Advanced lo [.binary op (.temp k) a b] cfg s d u ∧ d.get (.temp k) = v :=
  Machine.computes hat (by rintro ⟨⟩) rfl hk hs

theorem unary_follows {op : UnaryInstr} {k lo n : Nat} {a : Operand} {rest : Code}
    {cfg : Config D} {s : State D}
    (hat : Code.At M.code cfg.pc (.unary op (.temp k) a :: rest)) (hk : lo < k)
    (hs : cfg.Shows s) :
    M.Follows n cfg ((M.interpretation.unaryAct op (cfg.get a)).run s) fun v u d =>
      Advanced lo [.unary op (.temp k) a] cfg s d u ∧ d.get (.temp k) = v :=
  Machine.computes hat (by rintro ⟨⟩) rfl hk hs

theorem negated_follows {op : BinaryInstr} {k lo n : Nat} {a b : Operand} {rest : Code}
    {cfg : Config D} {s : State D}
    (hat : Code.At M.code cfg.pc
      (.binary op (.temp k) a b :: .unary .not (.temp k) (.temp k) :: rest))
    (hk : lo < k) (hs : cfg.Shows s) :
    M.Follows n cfg ((M.interpretation.binaryAct op (cfg.get a) (cfg.get b) >>=
      M.interpretation.unaryAct .not).run s) fun v u d =>
        Advanced lo [.binary op (.temp k) a b, .unary .not (.temp k) (.temp k)] cfg s d u ∧
          d.get (.temp k) = v := by
  refine (binary_follows hat hk hs).bind fun v u d hres => ?_
  obtain ⟨h, hv⟩ := hres
  have hat' : Code.At M.code d.pc (.unary .not (.temp k) (.temp k) :: rest) :=
    h.codeAt (a := [_]) hat
  rw [← hv]
  refine (unary_follows hat' hk (h.shows hs)).mono fun v' u' d' hres => ?_
  obtain ⟨h', hv'⟩ := hres
  exact ⟨h.trans h' (Nat.le_refl _), hv'⟩

theorem operation_follows (M : Machine D) (op : BinaryOp) (ns : Numbers) {lo k : Nat}
    {a b : Operand} (hk : lo < k) (ha : a.Stable lo) (hb : b.Stable lo) (c : Counters)
    (hc : k ≤ c.temps) :
    Gives (operation op ns (.temp k) a b) c fun code c' => c.temps ≤ c'.temps ∧
      ∀ n cfg s, Code.At M.code cfg.pc code → cfg.Shows s →
        M.Follows n cfg ((M.interpretation.operator op ns (cfg.get a) (cfg.get b)).run s)
          fun v u d => Advanced lo code cfg s d u ∧ d.get (.temp k) = v := by
  cases op with
  | mod =>
    refine (gives_freshTemp c).bind fun q c₁ hres => ?_
    obtain ⟨hq, hc₁⟩ := hres
    subst hq hc₁
    refine (gives_freshTemp _).bind fun p c₂ hres => gives_pure ?_
    obtain ⟨hp, hc₂⟩ := hres
    subst hp hc₂
    have hquotient : k < c.temps + 1 := by omega
    have hproduct : k < c.temps + 1 + 1 := by omega
    have hle := Nat.le_of_lt hk
    refine ⟨by simp only; omega, fun n cfg s hat hs => ?_⟩
    refine (binary_follows hat hquotient hs).bind fun x u d hres => ?_
    obtain ⟨h, hx⟩ := hres
    have hat₁ := h.codeAt (a := [_]) hat
    rw [← hx, ← h.get (hb.mono hle)]
    refine (binary_follows hat₁ hproduct (h.shows hs)).bind fun y u' d' hres => ?_
    obtain ⟨h', hy⟩ := hres
    have hat₂ := h'.codeAt (a := [_]) hat₁
    rw [← hy, ← h.get (ha.mono hle), ← h'.get (ha.mono hle)]
    refine (binary_follows hat₂ hk (h'.shows (h.shows hs))).mono fun v u'' d'' hres => ?_
    obtain ⟨h'', hv⟩ := hres
    have hall := (((Advanced.refl lo hs).trans h hle).trans h' hle).trans h'' (Nat.le_refl _)
    exact ⟨hall, hv⟩
  | notEqual => exact gives_pure ⟨Nat.le_refl _, fun n cfg s hat hs => negated_follows hat hk hs⟩
  | greater => exact gives_pure ⟨Nat.le_refl _, fun n cfg s hat hs => negated_follows hat hk hs⟩
  | greaterEqual =>
    exact gives_pure ⟨Nat.le_refl _, fun n cfg s hat hs => negated_follows hat hk hs⟩
  | _ => exact gives_pure ⟨Nat.le_refl _, fun n cfg s hat hs => binary_follows hat hk hs⟩

theorem nameValue_follows (hE : E.Agrees Γ Λ) (hM : M.Suits Γ) {x : String} {role : Role} {t : Ty}
    (hx : Γ.meaning x = some (role, t)) {n : Nat} {cfg : Config D} {s : State D}
    (hs : cfg.Shows s) :
    M.Follows n cfg ((M.interpretation.nameValue Γ x).run s) fun v u d =>
      u = s ∧ d = cfg ∧ cfg.Stands M.interpretation Γ (.name x) t v := by
  have hfetch : cfg.Stands M.interpretation Γ (.name x) t (cfg.registers x) →
      M.Follows n cfg ((Act.fetch x).run s) fun v u d =>
        u = s ∧ d = cfg ∧ cfg.Stands M.interpretation Γ (.name x) t v := by
    intro hstands
    rw [hs.frame x (hM.names x _ hx)] at hstands
    exact ⟨cfg, .refl M cfg, rfl, rfl, hstands⟩
  unfold Interpretation.nameValue
  rw [hx]
  cases hE.proper _ _ _ hx with
  | function => cases role <;> exact hfetch .function
  | value hv =>
    obtain ⟨b | ⟨m, b⟩⟩ := hv
    · have hscalar := hfetch (.value (Primitive.ofBase b) rfl)
      cases b <;> cases role <;> exact hscalar
    · cases role with
      | «variable» => exact Machine.follows_pure ⟨rfl, rfl, .owned hx⟩
      | parameter => exact hfetch (.reference hx)
      | function => exact absurd rfl (hE.own _ _ _ hx rfl).2

theorem arrayBase_follows (hE : E.Agrees Γ Λ) (hM : M.Suits Γ) {x : String} {role : Role}
    {m : Nat} {t : Ty} (hx : Γ.meaning x = some (role, .array m t)) (c : Counters) :
    Gives (arrayBase Λ (.name x)) c fun r c' => c.temps ≤ c'.temps ∧ r.2.Stable c'.temps ∧
      ∀ cfg s v, Code.At M.code cfg.pc r.1 → cfg.Shows s →
        cfg.Stands M.interpretation Γ (.name x) (.array m t) v →
          ∃ d, M.Reaches cfg d ∧ Advanced c.temps r.1 cfg s d s ∧
            d.base M.interpretation r.2 = v := by
  have htext : (Operand.name x).text = x := rfl
  rw [arrayBase, htext]
  by_cases hp : role = .parameter
  · rw [if_pos ((isParameter_iff hE hx).2 hp)]
    subst hp
    refine (gives_freshTemp c).bind fun o c' hres => gives_pure ?_
    obtain ⟨ho, hc'⟩ := hres
    subst ho hc'
    refine ⟨Nat.le_succ _, .temp (Nat.le_refl _), fun cfg s v hat hs hv => ?_⟩
    have hvalue : cfg.registers x = v := by
      cases hv with
      | value h => cases h
      | owned h =>
        rw [hx] at h
        cases h
      | reference => rfl
    rw [← hvalue]
    exact Machine.moves hat rfl (Nat.lt_succ_self _) hs
  · rw [if_neg fun h => hp ((isParameter_iff hE hx).1 h)]
    refine gives_pure ⟨Nat.le_refl _, .name (hM.names x _ hx), fun cfg s v hat hs hv => ?_⟩
    refine ⟨cfg, .refl M cfg, .refl _ hs, ?_⟩
    cases hv with
    | value h => cases h
    | owned => rfl
    | reference h =>
      rw [hx] at h
      cases h
      exact absurd rfl hp

theorem reference_follows (hE : E.Agrees Γ Λ) (hM : M.Suits Γ) {x : String} {role : Role}
    {m : Nat} {t : Ty} (hx : Γ.meaning x = some (role, .array m t)) (c : Counters) :
    Gives (reference Λ (.name x)) c fun r c' => c.temps ≤ c'.temps ∧ r.2.Stable c'.temps ∧
      ∀ cfg s v, Code.At M.code cfg.pc r.1 → cfg.Shows s →
        cfg.Stands M.interpretation Γ (.name x) (.array m t) v →
          ∃ d, M.Reaches cfg d ∧ Advanced c.temps r.1 cfg s d s ∧ d.get r.2 = v := by
  have htext : (Operand.name x).text = x := rfl
  rw [reference, htext]
  by_cases hp : role = .parameter
  · rw [if_pos ((isParameter_iff hE hx).2 hp)]
    refine gives_pure ⟨Nat.le_refl _, .name (hM.names x _ hx), fun cfg s v hat hs hv => ?_⟩
    refine ⟨cfg, .refl M cfg, .refl _ hs, ?_⟩
    cases hv with
    | value h => cases h
    | owned h =>
      rw [hx] at h
      cases h
      cases hp
    | reference => rfl
  · rw [if_neg fun h => hp ((isParameter_iff hE hx).1 h)]
    refine (gives_freshTemp c).bind fun o c' hres => gives_pure ?_
    obtain ⟨ho, hc'⟩ := hres
    subst ho hc'
    refine ⟨Nat.le_succ _, .temp (Nat.le_refl _), fun cfg s v hat hs hv => ?_⟩
    have hvalue : M.interpretation.owned x = v := by
      cases hv with
      | value h => cases h
      | owned => rfl
      | reference h =>
        rw [hx] at h
        cases h
        exact absurd rfl hp
    rw [← hvalue]
    exact Machine.moves hat rfl (Nat.lt_succ_self _) hs

def Evaluated (M : Machine D) (Γ : Context) (Λ : Lowering) (e : Expr) : Prop :=
  ∀ t, e.HasType Γ t → e.Noted Λ Γ → ∀ c, Gives (expr Λ e) c fun r c' =>
    M.Evaluates Γ t (e.eval M.interpretation Γ) c r c'

theorem literal_evaluated (m : Mark) (v : Literal) : Evaluated M Γ Λ (.literal m v) := by
  intro t ht _ c
  cases ht
  refine (gives_freshTemp c).bind fun o c' hres => gives_pure ?_
  obtain ⟨ho, hc'⟩ := hres
  subst ho hc'
  refine ⟨Nat.le_succ _, .value v.primitive_type (.temp (Nat.le_refl _)), fun n cfg s hat hs => ?_⟩
  have hvalue : M.interpretation.constant (constantOf v) = M.interpretation.literal v := by
    cases v with
    | bool b => cases b <;> rfl
    | _ => rfl
  obtain ⟨d, hreach, h, hget⟩ := Machine.moves hat rfl (Nat.lt_succ_self c.temps) hs
  refine .of_reaches hreach (Machine.follows_pure ⟨h, .value v.primitive_type ?_⟩)
  rw [hget, hvalue]

theorem name_evaluated (hE : E.Agrees Γ Λ) (hM : M.Suits Γ) (m : Mark) (x : Ident) :
    Evaluated M Γ Λ (.name m x) := by
  intro t ht _ c
  cases ht with
  | name hx =>
    refine gives_pure ⟨Nat.le_refl _, ?_, fun n cfg s _ hs => ?_⟩
    · cases hE.proper _ _ _ hx with
      | function => exact .function
      | value hv =>
        obtain ⟨b | ⟨m, b⟩⟩ := hv
        · exact .value (Primitive.ofBase b) (.name (hM.names _ _ hx))
        · exact .array hx
    · refine (nameValue_follows hE hM hx hs).mono fun v u d hres => ?_
      obtain ⟨hu, hd, hv⟩ := hres
      subst hu hd
      exact ⟨.refl _ hs, hv⟩

/-- What is done with an index and the array of a name is done with what the code for both has left
in their operands. -/
theorem indexed_follows (hE : E.Agrees Γ Λ) (hM : M.Suits Γ) {index : Expr} {x : String}
    {role : Role} {m : Nat} {t : Ty} (hx : Γ.meaning x = some (role, .array m t))
    {c c₁ : Counters} {r q : Code × Operand}
    (hi : M.Evaluates Γ .int (index.eval M.interpretation Γ) c r c₁)
    (hload : ∀ cfg s v, Code.At M.code cfg.pc q.1 → cfg.Shows s →
      cfg.Stands M.interpretation Γ (.name x) (.array m t) v →
        ∃ d, M.Reaches cfg d ∧ Advanced c₁.temps q.1 cfg s d s ∧ d.base M.interpretation q.2 = v)
    {n : Nat} {cfg : Config D} {s : State D} (hat : Code.At M.code cfg.pc (r.1 ++ q.1))
    (hs : cfg.Shows s) {β : Type} {f : D.Value → D.Value → Act D β}
    {R : β → State D → Config D → Prop}
    (hf : ∀ u d, Advanced c.temps (r.1 ++ q.1) cfg s d u →
      M.Follows n d ((f (d.get r.2) (d.base M.interpretation q.2)).run u) R) :
    M.Follows n cfg ((do
      let i ← index.eval M.interpretation Γ
      let array ← M.interpretation.nameValue Γ x
      f i array).run s) R := by
  refine (hi.follows n cfg s hat.left hs).bind fun i s₁ d₁ hres => ?_
  obtain ⟨h₁, hi₁⟩ := hres
  have hs₁ := h₁.shows hs
  refine (nameValue_follows hE hM hx hs₁).bind fun a u d hres => ?_
  obtain ⟨hu, hd, ha⟩ := hres
  subst hu hd
  obtain ⟨d₂, hreach, h₂, hbase⟩ := hload _ _ a (h₁.codeAt hat) hs₁ ha
  have hindex : d₂.get r.2 = i := (h₂.get (hi.held.stable .int)).trans (hi₁.get .int)
  refine .of_reaches hreach ?_
  rw [← hbase, ← hindex]
  exact hf _ _ (h₁.trans h₂ hi.le)

theorem element_evaluated (hE : E.Agrees Γ Λ) (hM : M.Suits Γ) {m : Mark} {base : Ident}
    {index : Expr} (ih : Evaluated M Γ Λ index) : Evaluated M Γ Λ (.element m base index) := by
  intro t ht hn c
  cases ht with
  | element hbase hindex =>
    have hp := (hE.proper _ _ _ hbase).elem
    refine (ih .int hindex hn.index c).bind fun r c₁ hi => ?_
    refine (arrayBase_follows hE hM hbase c₁).bind fun q c₂ hres => ?_
    obtain ⟨hle, hq, hload⟩ := hres
    refine (gives_freshTemp c₂).bind fun o c₃ hres => gives_pure ?_
    obtain ⟨ho, hc₃⟩ := hres
    subst ho hc₃
    refine ⟨?_, .value hp (.temp (Nat.le_refl _)), fun n cfg s hat hs => ?_⟩
    · exact Nat.le_trans hi.le (Nat.le_trans hle (Nat.le_succ _))
    · rw [Expr.eval]
      refine indexed_follows hE hM hbase hi hload hat.left hs fun u d h => ?_
      refine (Machine.computes (h.codeAt hat) (by rintro ⟨⟩) rfl (Nat.lt_succ_self _)
        (h.shows hs)).mono fun v u' d' hres => ?_
      obtain ⟨h', hv⟩ := hres
      exact ⟨h.trans h' (Nat.le_trans hi.le hle), .value hp hv⟩

theorem unary_evaluated {m : Mark} {op : UnaryOp} {operand : Expr}
    (ih : Evaluated M Γ Λ operand) : Evaluated M Γ Λ (.unary m op operand) := by
  intro t ht hn c
  have hnode := hn.typeOf
  cases ht with
  | @unary _ _ _ t₁ _ hoperand hop =>
    have hp := hop.primitive
    have hp₁ : Primitive t₁ := by
      cases hop with
      | plus => exact hp
      | minus => exact hp
      | not => exact .bool
    refine (ih _ hoperand hn.operand c).bind fun r c₁ hv => ?_
    have hone : ∀ i : UnaryInstr, Gives (do
        let t ← freshTemp
        return (r.1 ++ [.unary i t r.2], t)) c₁ fun q c' =>
          M.Evaluates Γ t (operand.eval M.interpretation Γ >>= M.interpretation.unaryAct i)
            c q c' := by
      intro i
      refine (gives_freshTemp c₁).bind fun o c₂ hres => gives_pure ?_
      obtain ⟨ho, hc₂⟩ := hres
      subst ho hc₂
      refine ⟨Nat.le_trans hv.le (Nat.le_succ _), .value hp (.temp (Nat.le_refl _)), ?_⟩
      intro n cfg s hat hs
      refine (hv.follows n cfg s hat.left hs).bind fun v u d hres => ?_
      obtain ⟨h, hstands⟩ := hres
      rw [← hstands.get hp₁]
      refine (unary_follows (h.codeAt hat) (Nat.lt_succ_self _) (h.shows hs)).mono
        fun v' u' d' hres => ?_
      obtain ⟨h', hv'⟩ := hres
      exact ⟨h.trans h' hv.le, .value hp hv'⟩
    cases op with
    | plus =>
      cases hop
      refine gives_pure ⟨hv.le, hv.held, fun n cfg s hat hs => ?_⟩
      rw [Expr.eval]
      exact (hv.follows n cfg s hat hs).bind fun v u d h => Machine.follows_pure h
    | not => exact hone .not
    | minus =>
      refine (gives_known hnode).bind fun _ _ hres => ?_
      obtain ⟨h, h'⟩ := hres
      subst h h'
      rw [numbers_eq]
      exact hone _

theorem binary_evaluated {m : Mark} {op : BinaryOp} {lhs rhs : Expr}
    (ihl : Evaluated M Γ Λ lhs) (ihr : Evaluated M Γ Λ rhs) :
    Evaluated M Γ Λ (.binary m op lhs rhs) := by
  intro r hr hn c
  cases hr with
  | @binary _ _ _ _ t u _ ht hu hop =>
    obtain ⟨hnl, hnr⟩ := hn.operands
    obtain ⟨hpt, hpu⟩ := BinaryOp.HasType.primitives hop
    have hp := hop.primitive
    refine (ihl t ht hnl c).bind fun a c₁ ha => (ihr u hu hnr c₁).bind fun b c₂ hb => ?_
    refine (gives_known hnl.typeOf).bind fun _ _ hres => ?_
    obtain ⟨h, h'⟩ := hres
    subst h h'
    refine (gives_known hnr.typeOf).bind fun _ _ hres => ?_
    obtain ⟨h, h'⟩ := hres
    subst h h'
    have hcommon := Ty.join_pair (lhs.judge Γ).type (rhs.judge Γ).type
    change Gives (do
      let a' ← coerce a.2 (lhs.judge Γ).type ((lhs.judge Γ).type.common (rhs.judge Γ).type)
      let b' ← coerce b.2 (rhs.judge Γ).type ((lhs.judge Γ).type.common (rhs.judge Γ).type)
      let dst ← freshTemp
      let code ← operation op (numbers ((lhs.judge Γ).type.common (rhs.judge Γ).type)) dst a'.2 b'.2
      return (a.1 ++ b.1 ++ a'.1 ++ b'.1 ++ code, dst)) c₂ _
    rw [← hcommon, numbers_eq]
    refine (coerce_follows M a.2 _ _ c₂).bind fun a' c₃ hres => ?_
    obtain ⟨hle₃, hst₃, hconvA⟩ := hres
    refine (coerce_follows M b.2 _ _ c₃).bind fun b' c₄ hres => ?_
    obtain ⟨hle₄, hst₄, hconvB⟩ := hres
    refine (gives_freshTemp c₄).bind fun o c₅ hres => ?_
    obtain ⟨ho, hc₅⟩ := hres
    subst ho hc₅
    have ha' := hst₃ ((ha.held.stable hpt).mono hb.le)
    have hb' := hst₄ ((hb.held.stable hpu).mono hle₃)
    refine (operation_follows M op _ (Nat.lt_succ_self c₄.temps) (ha'.mono hle₄) hb' _
      (Nat.le_refl _)).bind fun code c₆ hres => gives_pure ?_
    obtain ⟨hle₆, hcode⟩ := hres
    have hle₂ := Nat.le_trans ha.le hb.le
    have hle := Nat.le_trans hle₂ (Nat.le_trans hle₃ hle₄)
    refine ⟨Nat.le_trans hle (Nat.le_of_lt hle₆), .value hp (.temp hle₆), fun n cfg s hat hs => ?_⟩
    simp only [List.append_assoc] at hat
    rw [Expr.eval]
    refine (ha.follows n cfg s hat.left hs).bind fun x s₁ d₁ hres => ?_
    obtain ⟨h₁, hx⟩ := hres
    have hat₁ := h₁.codeAt hat
    have hs₁ := h₁.shows hs
    refine (hb.follows n d₁ s₁ hat₁.left hs₁).bind fun y s₂ d₂ hres => ?_
    obtain ⟨h₂, hy⟩ := hres
    have hat₂ := h₂.codeAt hat₁
    have hs₂ := h₂.shows hs₁
    have hx₂ : d₂.get a.2 = x := (h₂.get (ha.held.stable hpt)).trans (hx.get hpt)
    rw [← hx₂]
    refine (hconvA n d₂ s₂ hat₂.left hs₂).bind fun x' s₃ d₃ hres => ?_
    obtain ⟨h₃, hx'⟩ := hres
    have hat₃ := h₃.codeAt hat₂
    have hs₃ := h₃.shows hs₂
    have hy₃ : d₃.get b.2 = y := (h₃.get (hb.held.stable hpu)).trans (hy.get hpu)
    rw [← hy₃]
    refine (hconvB n d₃ s₃ hat₃.left hs₃).bind fun y' s₄ d₄ hres => ?_
    obtain ⟨h₄, hy'⟩ := hres
    have hx₄ : d₄.get a'.2 = x' := (h₄.get ha').trans hx'
    rw [← hx₄, ← hy']
    refine (hcode n d₄ s₄ (h₄.codeAt hat₃) (h₄.shows hs₃)).mono fun v u d hres => ?_
    obtain ⟨h₅, hv⟩ := hres
    have h₁₃ := (h₁.trans h₂ ha.le).trans h₃ hle₂
    exact ⟨(h₁₃.trans h₄ (Nat.le_trans hle₂ hle₃)).trans h₅ hle, .value hp hv⟩

end Lower

end

end Asl
