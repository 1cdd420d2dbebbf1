import Asl.Proofs.Lowering.TypedBody
import Asl.Proofs.Meaning.Control

/-!
# Places and copies

The place that a statement stores into is found before the value is evaluated, and the temporaries
that hold it are kept meanwhile. A whole array is copied cell by cell through two temporaries, which
leaves the references to both arrays as they are.
-/
namespace Asl

variable {D : Domain}

inductive Lower.Place.Denotes (I : Interpretation D) (lo : Nat) (c : Config D) :
    Lower.Place → Asl.Place D → Prop
  | scalar {x : String} : isIdentifier x = true → Denotes I lo c (.scalar (.name x)) (.scalar x)
  | element {base index : Operand} : base.Stable lo → index.Stable lo →
      Denotes I lo c (.element base index) (.element (c.base I base) (c.get index))

theorem Operand.Stable.base {o : Operand} {lo : Nat} (h : o.Stable lo) {c d : Config D}
    (hget : d.get o = c.get o) (I : Interpretation D) : d.base I o = c.base I o := by
  cases h with
  | temp => exact hget
  | name => rfl

section

variable {E : Surroundings} {Γ : Context} {Λ : Lowering} {M : Machine D}

theorem Lower.Place.Denotes.advanced {I : Interpretation D} {lo lo' : Nat} {c d : Config D}
    {s u : State D} {code : Code} {p : Lower.Place} {q : Asl.Place D} (h : p.Denotes I lo c q)
    (hd : Advanced lo' code c s d u) (hle : lo ≤ lo') : p.Denotes I lo' d q := by
  cases h with
  | scalar hx => exact .scalar hx
  | element hb hi =>
    have hbase := hb.base (hd.get (hb.mono hle)) I
    have hindex := hd.get (hi.mono hle)
    rw [← hbase, ← hindex]
    exact .element (hb.mono hle) (hi.mono hle)

namespace Lower

theorem place_follows (hE : E.Agrees Γ Λ) (hM : M.Suits Γ) {x : Target} {t : Ty}
    (hx : x.HasType Γ t) (hn : Λ.Reads (x.judge Γ).report) (c : Counters) :
    Gives (place Λ x) c fun r c' => c.temps ≤ c'.temps ∧
      ∀ n cfg s, Code.At M.code cfg.pc r.1 → cfg.Shows s →
        M.Follows n cfg ((x.place M.interpretation Γ).run s) fun q u d =>
          Advanced c.temps r.1 cfg s d u ∧ r.2.Denotes M.interpretation c'.temps d q := by
  cases hx with
  | name hmeaning _ =>
    refine gives_pure ⟨Nat.le_refl _, fun n cfg s _ hs => ?_⟩
    exact Machine.follows_pure ⟨.refl _ hs, .scalar (hM.names _ _ hmeaning)⟩
  | element hbase hindex =>
    have hni := Target.noted_index hn
    refine (expr_evaluated hE hM _ .int hindex hni c).bind fun r c₁ hi => ?_
    refine (arrayBase_follows hE hM hbase c₁).bind fun q c₂ hres => gives_pure ?_
    obtain ⟨hle, hq, hload⟩ := hres
    refine ⟨Nat.le_trans hi.le hle, fun n cfg s hat hs => ?_⟩
    rw [Target.place]
    have hstable := (hi.held.stable .int).mono hle
    exact indexed_follows hE hM hbase hi hload hat hs fun u d h =>
      Machine.follows_pure ⟨h, .element hq hstable⟩

theorem store_follows {p : Lower.Place} {q : Asl.Place D} {o : Operand} {lo n : Nat} {rest : Code}
    {cfg : Config D} {s : State D} (hp : p.Denotes M.interpretation lo cfg q)
    (hat : Code.At M.code cfg.pc (p.store o :: rest)) (hs : cfg.Shows s) :
    M.Follows n cfg ((M.interpretation.set q (cfg.get o)).run s) fun _ u d =>
      Passed lo cfg (cfg.pc + 1) u d := by
  cases hp with
  | scalar hx => exact ⟨_, Machine.reaches_of_execute hat.head rfl, .assign hs hx _⟩
  | @element base index _ _ =>
    apply (Machine.performs (i := .storeElement base index o) hat (by rintro ⟨⟩) rfl hs).mono
    intro _ u d h
    exact .of_advanced h hs

/-- Code for one element after another follows what is done for each of them, if it keeps what the
code for an element relies on. -/
theorem forM_follows {α : Type} {P : Config D → Prop} {lo : Nat} {code : α → Code}
    {act : α → Act D Unit}
    (hkeeps : ∀ {part c s d u}, Advanced lo part c s d u → P c → P d)
    (h : ∀ a n cfg s, Code.At M.code cfg.pc (code a) → cfg.Shows s → P cfg →
      M.Follows n cfg ((act a).run s) fun _ u d => Advanced lo (code a) cfg s d u)
    (as : List α) {n : Nat} {cfg : Config D} {s : State D}
    (hat : Code.At M.code cfg.pc (as.flatMap code)) (hs : cfg.Shows s) (hcfg : P cfg) :
    M.Follows n cfg ((as.forM act).run s) fun _ u d =>
      Advanced lo (as.flatMap code) cfg s d u := by
  induction as generalizing cfg s with
  | nil => exact Machine.follows_pure (.refl lo hs)
  | cons a as ih =>
    rw [List.flatMap_cons] at hat ⊢
    apply (h a n cfg s hat.left hs hcfg).bind
    intro _ u d hd
    apply (ih (hd.codeAt hat) (hd.shows hs) (hkeeps hd hcfg)).mono
    intro _ w e he
    exact hd.trans he (Nat.le_refl lo)

theorem copyElements_follow {dst src : Operand} {lo i j : Nat} (hdst : dst.Stable lo)
    (hsrc : src.Stable lo) (hi : lo < i) (hj : i < j) (size : Nat) {n : Nat} {cfg : Config D}
    {s : State D} (hat : Code.At M.code cfg.pc (copyElements dst src (.temp i) (.temp j) size))
    (hs : cfg.Shows s) :
    M.Follows n cfg ((M.interpretation.copyCells (cfg.base M.interpretation dst)
      (cfg.base M.interpretation src) size).run s) fun _ u d =>
        Advanced lo (copyElements dst src (.temp i) (.temp j) size) cfg s d u := by
  have hkeeps : ∀ {part : Code} {c : Config D} {s : State D} {d : Config D} {u : State D},
      Advanced lo part c s d u →
        (c.base M.interpretation dst = cfg.base M.interpretation dst ∧
          c.base M.interpretation src = cfg.base M.interpretation src) →
        (d.base M.interpretation dst = cfg.base M.interpretation dst ∧
          d.base M.interpretation src = cfg.base M.interpretation src) := by
    intro part c s d u h hc
    rw [hdst.base (h.get hdst), hsrc.base (h.get hsrc)]
    exact hc
  apply forM_follows hkeeps _ (List.range size) hat hs ⟨rfl, rfl⟩
  rintro k n c s hat hs ⟨hd, hs'⟩
  obtain ⟨d₁, hreach, h₁, hindex⟩ := Machine.moves hat rfl hi hs
  apply Machine.Follows.of_reaches hreach
  have hat₁ := h₁.codeAt (a := [_]) hat
  have hs₁ := h₁.shows hs
  have hload : M.execute (.loadElement (.temp j) src (.temp i)) d₁ =
      d₁.after (.load M.interpretation (cfg.base M.interpretation src)
        (M.interpretation.constant (.int k))) fun v d => d.set (.temp j) v := by
    rw [← hindex, ← hs', ← hsrc.base (h₁.get hsrc)]
    rfl
  apply (Machine.computes hat₁ (by rintro ⟨⟩) hload hj hs₁).bind
  rintro v s₂ d₂ ⟨h₂, hv⟩
  have hat₂ := h₂.codeAt (a := [_]) hat₁
  have hstore : M.execute (.storeElement dst (.temp i) (.temp j)) d₂ =
      d₂.after (.store M.interpretation (cfg.base M.interpretation dst)
        (M.interpretation.constant (.int k)) v) fun _ d => d := by
    have hlo := Nat.le_of_lt hi
    rw [← hv, ← hindex, ← h₂.get (.temp (Nat.le_refl i)), ← hd, ← hdst.base (h₁.get hdst),
      ← hdst.base (h₂.get (hdst.mono hlo))]
    rfl
  apply (Machine.performs hat₂ (by rintro ⟨⟩) hstore (h₂.shows hs₁)).mono
  intro _ u d h₃
  exact (h₁.trans h₂ (Nat.le_of_lt hi)).trans h₃ (Nat.le_refl lo)

theorem Held.exists_name {o : Operand} {lo m : Nat} {t : Ty} (h : o.Held Γ lo (.array m t)) :
    ∃ x role, o = .name x ∧ Γ.meaning x = some (role, .array m t) := by
  cases h with
  | value hp => cases hp
  | array hx => exact ⟨_, _, rfl, hx⟩

theorem copyArray_follows (hE : E.Agrees Γ Λ) (hM : M.Suits Γ) {x : String} {role : Role} {m : Nat}
    {t : Ty} (hx : Γ.meaning x = some (role, .array m t)) {value : Expr}
    (hv : value.HasType Γ (.array m t)) (hn : value.Noted Λ Γ) (size : Nat) (c : Counters) :
    Gives (copyArray Λ x size value) c fun code c' => c.temps ≤ c'.temps ∧
      ∀ n cfg s, Code.At M.code cfg.pc code → cfg.Shows s →
        M.Follows n cfg ((Stmt.assignArray M.interpretation Γ x size value).run s) fun _ u d =>
          Advanced c.temps code cfg s d u := by
  rw [copyArray_eq hE hv]
  refine (expr_evaluated hE hM value _ hv hn c).bind fun hres c₁ hr => ?_
  obtain ⟨code, o⟩ := hres
  obtain ⟨y, role', ho, hy⟩ := Held.exists_name hr.held
  simp only at ho
  subst ho
  refine (arrayBase_follows hE hM hy c₁).bind fun src c₂ hres => ?_
  obtain ⟨hle₂, hsrc, hloadS⟩ := hres
  refine (arrayBase_follows hE hM hx c₂).bind fun dst c₃ hres => ?_
  obtain ⟨hle₃, hdst, hloadD⟩ := hres
  refine (gives_freshTemp c₃).bind fun o c₄ hres => ?_
  obtain ⟨ho, hc₄⟩ := hres
  subst ho hc₄
  refine (gives_freshTemp _).bind fun o c₅ hres => gives_pure ?_
  obtain ⟨ho, hc₅⟩ := hres
  subst ho hc₅
  have hle := Nat.le_trans hr.le (Nat.le_trans hle₂ hle₃)
  refine ⟨?_, fun n cfg s hat hs => ?_⟩
  · simp only
    omega
  simp only [List.append_assoc] at hat
  rw [Stmt.assignArray]
  apply (hr.follows n cfg s hat.left hs).bind
  rintro v s₁ d₁ ⟨h₁, hv₁⟩
  have hat₁ := h₁.codeAt hat
  have hs₁ := h₁.shows hs
  obtain ⟨d₂, hreach₂, h₂, hsrc₂⟩ := hloadS d₁ s₁ v hat₁.left hs₁ hv₁
  apply Machine.Follows.of_reaches hreach₂
  have hat₂ := h₂.codeAt hat₁
  have hs₂ := h₂.shows hs₁
  apply (nameValue_follows hE hM hx hs₂).bind
  rintro a _ _ ⟨hu, hd, ha⟩
  subst hu hd
  obtain ⟨d₃, hreach₃, h₃, hdst₃⟩ := hloadD _ _ a hat₂.left hs₂ ha
  apply Machine.Follows.of_reaches hreach₃
  have hsrc₃ := hsrc.base (h₃.get hsrc) M.interpretation
  rw [hsrc₂] at hsrc₃
  rw [← hdst₃, ← hsrc₃]
  have hfirst : c₃.temps < c₃.temps + 1 := Nat.lt_succ_self _
  have hsecond : c₃.temps + 1 < c₃.temps + 1 + 1 := Nat.lt_succ_self _
  apply (copyElements_follow hdst (hsrc.mono hle₃) hfirst hsecond size (h₃.codeAt hat₂)
    (h₃.shows hs₂)).mono
  intro _ w d h₄
  have h₁₃ := (h₁.trans h₂ hr.le).trans h₃ (Nat.le_trans hr.le hle₂)
  exact h₁₃.trans h₄ hle

theorem assignValue_follows (hE : E.Agrees Γ Λ) (hM : M.Suits Γ) {target : Target} {value : Expr}
    {t u : Ty} (hx : target.HasType Γ t) (ht : Primitive t) (hv : value.HasType Γ u)
    (hfits : Fits u t) (hnx : Λ.Reads (target.judge Γ).report) (hnv : value.Noted Λ Γ)
    (c : Counters) :
    Gives (do
      let valueType ← typeOf Λ value.mark.id
      let p ← place Λ target
      let v ← expr Λ value
      let w ← coerce v.2 valueType t
      return p.1 ++ v.1 ++ w.1 ++ [p.2.store w.2]) c fun code c' => c.temps ≤ c'.temps ∧
        ∀ n cfg s, Code.At M.code cfg.pc code → cfg.Shows s →
          M.Follows n cfg ((Stmt.assignValue M.interpretation Γ target value).run s) fun _ u d =>
            Passed c.temps cfg (cfg.pc + code.length) u d := by
  have hp := hfits.primitive ht
  have htype : (target.judge Γ).type = t := ((Target.clean_judge hE.proper target t).2 hx).1.2
  have hvalue : (value.judge Γ).type = u := ((Expr.clean_judge hE.proper value u).2 hv).2
  refine (gives_known hnv.typeOf).bind fun _ _ hres => ?_
  obtain ⟨h, h'⟩ := hres
  subst h h'
  refine (place_follows hE hM hx hnx c).bind fun p c₁ hres => ?_
  obtain ⟨hle₁, hplace⟩ := hres
  refine (expr_evaluated hE hM value u hv hnv c₁).bind fun r c₂ hr => ?_
  refine (coerce_follows M r.2 _ t c₂).bind fun q c₃ hres => gives_pure ?_
  obtain ⟨hle₃, _, hconv⟩ := hres
  have hle₂ := Nat.le_trans hle₁ hr.le
  refine ⟨Nat.le_trans hle₂ hle₃, fun n cfg s hat hs => ?_⟩
  simp only [List.append_assoc] at hat
  rw [Stmt.assignValue, htype]
  apply (hplace n cfg s hat.left hs).bind
  rintro place s₁ d₁ ⟨h₁, hdenotes⟩
  have hat₁ := h₁.codeAt hat
  have hs₁ := h₁.shows hs
  apply (hr.follows n d₁ s₁ hat₁.left hs₁).bind
  rintro v s₂ d₂ ⟨h₂, hv₂⟩
  have hat₂ := h₂.codeAt hat₁
  have hs₂ := h₂.shows hs₁
  rw [← hv₂.get hp]
  apply (hconv n d₂ s₂ hat₂.left hs₂).bind
  rintro y s₃ d₃ ⟨h₃, hy⟩
  have hplace₃ := (hdenotes.advanced h₂ (Nat.le_refl _)).advanced h₃ hr.le
  rw [← hy]
  apply (store_follows hplace₃ (h₃.codeAt hat₂) (h₃.shows hs₂)).mono
  intro _ w d h₄
  have h₁₃ := (h₁.trans h₂ hle₁).trans h₃ hle₂
  rw [List.length_append, ← Nat.add_assoc, ← h₁₃.pc]
  exact (Passed.of_advanced h₁₃ hs).trans h₄ hle₂

theorem exec_assign_of_primitive (I : Interpretation D) (n : Nat) (m : Mark) {target : Target}
    (ht : Primitive (target.judge Γ).type) (value : Expr) :
    Stmt.exec I Γ n (.assign m target value) =
      (Stmt.assignValue I Γ target value >>= fun _ => pure .normal) := by
  simp only [Stmt.exec]
  generalize (target.judge Γ).type = t at ht
  cases ht <;> rfl

theorem exec_assign_of_array (I : Interpretation D) (n : Nat) (m m' : Mark) {x : Ident}
    {size : Nat} {t : Ty} (ht : ((Target.name m' x).judge Γ).type = .array size t) (value : Expr) :
    Stmt.exec I Γ n (.assign m (.name m' x) value) =
      (Stmt.assignArray I Γ x.name size value >>= fun _ => pure .normal) := by
  simp only [Stmt.exec, ht]

theorem assign_executed (hE : E.Agrees Γ Λ) (hM : M.Suits Γ) (m : Mark) (target : Target)
    (value : Expr) : Executed M Γ Λ (.assign m target value) := by
  intro hok hn c
  obtain ⟨hnx, hnv⟩ := hn.assign
  cases hok with
  | @assign _ _ _ t u hx hv hfits =>
    have htype : (target.judge Γ).type = t := ((Target.clean_judge hE.proper target t).2 hx).1.2
    have hdeclared := hx.declared hE.proper
    refine (gives_known (typeOf_target hE hx hnx)).bind fun _ _ hres => ?_
    obtain ⟨h, h'⟩ := hres
    subst h h'
    have hscalar : Primitive t → Gives (do
        let valueType ← typeOf Λ value.mark.id
        let p ← place Λ target
        let v ← expr Λ value
        let w ← coerce v.2 valueType t
        return p.1 ++ v.1 ++ w.1 ++ [p.2.store w.2]) c fun code c' => c.temps ≤ c'.temps ∧
          M.Executes c.temps code fun n =>
            Stmt.exec M.interpretation Γ n (.assign m target value) := by
      intro ht
      refine (assignValue_follows hE hM hx ht hv hfits hnx hnv c).mono
        fun code c' hres => ?_
      obtain ⟨hle, hcode⟩ := hres
      refine ⟨hle, ?_⟩
      rw [← htype] at ht
      simp only [exec_assign_of_primitive M.interpretation _ m ht]
      exact Machine.executes_of_passed hcode
    cases hx with
    | element hbase hindex =>
      have ht := (hE.proper _ _ _ hbase).elem
      have hnot : t.isArray = false := by cases ht <;> rfl
      simp only [hnot, Bool.false_eq_true, if_false]
      exact hscalar ht
    | name hmeaning hrole =>
      cases hdeclared with
      | function => exact absurd (hE.function _ _ _ _ hmeaning).1 hrole
      | value hof =>
        obtain ⟨b | ⟨k, b⟩⟩ := hof
        · have ht := Primitive.ofBase b
          have hnot : (Ty.ofSpec (.base b)).isArray = false := by cases b <;> rfl
          simp only [hnot, Bool.false_eq_true, if_false]
          exact hscalar ht
        · cases hfits
          refine (copyArray_follows hE hM hmeaning hv hnv _ c).mono
            fun code c' hres => ?_
          obtain ⟨hle, hcode⟩ := hres
          refine ⟨hle, ?_⟩
          simp only [exec_assign_of_array M.interpretation _ m _ htype]
          apply Machine.executes_of_passed
          intro n cfg s hat hs
          apply (hcode n cfg s hat hs).mono
          intro _ u d h
          exact .of_advanced h hs

end Lower

end

end Asl
