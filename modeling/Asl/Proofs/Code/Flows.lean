import Asl.Proofs.Code.Structured

/-!
# What is known on every path

A fact about a place of some code says whether control can come there at all, which temporaries are
written when it does, and what lies on the stack. Facts flow from each instruction to the one behind
and to the label that it may jump to. Facts that flow through the code from its start hold on every
path; and facts flow through all structured code whose labels are distinct.
-/
namespace Asl

structure Fact where
  reached : Prop
  known : Set Nat
  stack : List Nat

structure Fact.Gives (X Y : Fact) : Prop where
  reached : X.reached → Y.reached
  known : Y.known ⊆ X.known
  stack : Y.stack = X.stack

theorem Fact.Gives.refl (X : Fact) : X.Gives X := ⟨id, subset_rfl, rfl⟩

theorem Fact.Gives.trans {X Y Z : Fact} (h : X.Gives Y) (h' : Y.Gives Z) : X.Gives Z :=
  ⟨h'.reached ∘ h.reached, h'.known.trans h.known, h'.stack.trans h.stack⟩

/-- A fact before an instruction and one behind it, given the facts at the labels. -/
structure Fact.Passes (L : Label → Fact) (pc : Nat) (X : Fact) (i : Instr) (Y : Fact) : Prop where
  sources : ∀ o ∈ i.sources, o.Known X.known
  target : ∀ l, i.target? = some l → X.Gives (L l)
  label : ∀ l, i = .label l → Y = L l
  reached : X.reached → i.passes = true → Y.reached
  known : Y.known ⊆ X.known ∪ i.written
  stack : i.move pc X.stack = some Y.stack

inductive Code.Flows (L : Label → Fact) : Nat → Fact → Code → Fact → Prop
  | nil {pc : Nat} {X Y : Fact} : X.Gives Y → Flows L pc X [] Y
  | cons {pc : Nat} {X Y Z : Fact} {i : Instr} {code : Code} : X.Passes L pc i Y →
      Flows L (pc + 1) Y code Z → Flows L pc X (i :: code) Z

variable {L L' : Label → Fact} {X X' Y Y' Z : Fact} {pc : Nat} {i : Instr} {code a b : Code}

theorem Fact.Passes.weaken (h : X'.Passes L pc i Y) (hX : X.Gives X') : X.Passes L pc i Y where
  sources o ho := (h.sources o ho).mono hX.known
  target l hl := hX.trans (h.target l hl)
  label := h.label
  reached hx := h.reached (hX.reached hx)
  known := h.known.trans (Set.union_subset_union_left _ hX.known)
  stack := hX.stack ▸ h.stack

theorem Fact.Passes.congr (h : X.Passes L pc i Y)
    (hL : ∀ l, i.target? = some l ∨ i = .label l → L' l = L l) : X.Passes L' pc i Y where
  sources := h.sources
  target l hl := by
    rw [hL l (Or.inl hl)]
    exact h.target l hl
  label l hl := by
    rw [hL l (Or.inr hl)]
    exact h.label l hl
  reached := h.reached
  known := h.known
  stack := h.stack

namespace Code.Flows

theorem weaken (h : Flows L pc X' code Y) (hX : X.Gives X') : Flows L pc X code Y := by
  cases h with
  | nil hY => exact .nil (hX.trans hY)
  | cons hi hcode => exact .cons (hi.weaken hX) hcode

theorem strengthen (h : Flows L pc X code Y') (hY : Y'.Gives Y) : Flows L pc X code Y := by
  induction h with
  | nil hX => exact .nil (hX.trans hY)
  | cons hi _ ih => exact .cons hi (ih hY)

theorem append (ha : Flows L pc X a Y) (hb : Flows L (pc + a.length) Y b Z) :
    Flows L pc X (a ++ b) Z := by
  induction ha with
  | nil hX => exact hb.weaken hX
  | cons hi _ ih =>
    refine .cons hi (ih ?_)
    rwa [List.length_cons, Nat.add_comm _ 1, ← Nat.add_assoc] at hb

theorem congr (h : Flows L pc X code Y)
    (hL : ∀ i ∈ code, ∀ l, i.target? = some l ∨ i = .label l → L' l = L l) :
    Flows L' pc X code Y := by
  induction h with
  | nil hX => exact .nil hX
  | cons hi _ ih =>
    obtain ⟨hLi, hLcode⟩ := List.forall_mem_cons.1 hL
    exact .cons (hi.congr hLi) (ih hLcode)

theorem at_place (h : Flows L pc X code Z) {n : Nat} (hn : n ≤ code.length) :
    ∃ Y, Flows L (pc + n) Y (code.drop n) Z ∧
      Code.scan pc X.stack (code.take n) = some Y.stack := by
  induction h generalizing n with
  | @nil pc X Y hX =>
    rw [Nat.le_zero.1 hn]
    exact ⟨X, .nil hX, rfl⟩
  | @cons pc X Y Z i code hi hcode ih =>
    cases n with
    | zero => exact ⟨X, .cons hi hcode, rfl⟩
    | succ n =>
      obtain ⟨W, hW, hscan⟩ := ih (Nat.le_of_succ_le_succ hn)
      refine ⟨W, ?_, ?_⟩
      · rwa [Nat.add_comm n 1, ← Nat.add_assoc, Nat.add_comm 1 n]
      · rw [List.take_succ_cons, Code.scan, hi.stack, Option.bind_some, hscan]

/-- The fact at a place that control can come to on a path, given the facts that flow from the
start. -/
structure Holds (L : Label → Fact) (code : Code) (Z : Fact) (visited : List Nat) (pc : Nat)
    (X : Fact) : Prop where
  reached : X.reached
  known : ∀ n ∈ X.known, code.Written visited n
  stack : code.pending visited = some X.stack
  scan : Code.scan 0 [] (code.take pc) = some X.stack
  flows : Flows L pc X (code.drop pc) Z

end Code.Flows

theorem Instr.move_of_target {l : Label} (h : i.target? = some l) (σ : List Nat) :
    i.move pc σ = some σ := by
  cases i with
  | jump l => rfl
  | jumpUnless o l => rfl
  | _ => cases h

theorem Instr.sources_push (o : Option Operand) : (Instr.push o).sources = o.toList := by
  cases o <;> rfl

theorem Instr.sources_pop (o : Option Operand) : (Instr.pop o).sources = [] := by
  cases o <;> rfl

namespace Code

theorem drop_of_getElem? {n : Nat} (h : code[n]? = some i) :
    code.drop n = i :: code.drop (n + 1) := by
  obtain ⟨hlt, hi⟩ := List.getElem?_eq_some_iff.1 h
  rw [List.drop_eq_getElem_cons hlt, hi]

theorem scan_take_succ {n : Nat} (h : code[n]? = some i) {σ : List Nat}
    (hscan : scan 0 [] (code.take n) = some σ) :
    scan 0 [] (code.take (n + 1)) = i.move n σ := by
  have hlt := (List.getElem?_eq_some_iff.1 h).1
  rw [List.take_add_one, h, Option.toList_some, scan_append, hscan, Option.bind_some,
    List.length_take_of_le (Nat.le_of_lt hlt), Nat.zero_add, scan]
  exact Option.bind_fun_some _

variable {visited : List Nat} {goal : Nat}

theorem Flows.Holds.onward (h : Flows.Holds L code Z visited pc X) (hi : code[pc]? = some i)
    (hpasses : i.passes = true) : ∃ Y, Flows.Holds L code Z (pc :: visited) (pc + 1) Y := by
  have hflows := h.flows
  rw [drop_of_getElem? hi] at hflows
  cases hflows with
  | @cons _ _ Y _ _ _ hstep hrest =>
    refine ⟨Y, hstep.reached h.reached hpasses, fun n hn => ?_, ?_, ?_, hrest⟩
    · rcases hstep.known hn with hn | hn
      · obtain ⟨q, hq, hwritten⟩ := h.known n hn
        exact ⟨q, List.mem_cons_of_mem _ hq, hwritten⟩
      · exact ⟨pc, List.mem_cons_self, i, hi, hn⟩
    · rw [pending, h.stack, Option.bind_some, hi, Option.bind_some, hstep.stack]
    · rw [scan_take_succ hi h.scan, hstep.stack]

theorem Flows.Holds.jump (hstart : Flows L 0 ⟨True, ∅, []⟩ code Z)
    (h : Flows.Holds L code Z visited pc X) (hi : code[pc]? = some i) {l : Label}
    (hl : i.target? = some l) (hgoal : code[goal]? = some (.label l)) :
    Flows.Holds L code Z (pc :: visited) goal (L l) := by
  have hgives : X.Gives (L l) := by
    have hflows := h.flows
    rw [drop_of_getElem? hi] at hflows
    cases hflows with
    | cons hstep _ => exact hstep.target l hl
  have hlt := (List.getElem?_eq_some_iff.1 hgoal).1
  obtain ⟨Y, hflows, hscan⟩ := hstart.at_place (Nat.le_of_lt hlt)
  rw [drop_of_getElem? hgoal, Nat.zero_add] at hflows
  cases hflows with
  | @cons _ _ W _ _ _ hstep hrest =>
    have hW : W = L l := hstep.label l rfl
    have hstack : Y.stack = (L l).stack := by
      rw [← hW]
      exact Option.some.inj hstep.stack
    refine ⟨hgives.reached h.reached, fun n hn => ?_, ?_, ?_, ?_⟩
    · obtain ⟨q, hq, hwritten⟩ := h.known n (hgives.known hn)
      exact ⟨q, List.mem_cons_of_mem _ hq, hwritten⟩
    · rw [pending, h.stack, Option.bind_some, hi, Option.bind_some, Instr.move_of_target hl,
        hgives.stack]
    · rw [hscan, hstack]
    · rw [drop_of_getElem? hgoal]
      rw [hW] at hrest
      refine .cons ⟨nofun, nofun, ?_, fun hr _ => hr, Set.subset_union_left, rfl⟩ hrest
      intro l' hl'
      rw [Instr.label.inj hl']

theorem Path.holds (hstart : Flows L 0 ⟨True, ∅, []⟩ code Z) (h : code.Path visited pc) :
    ∃ X, Flows.Holds L code Z visited pc X := by
  induction h with
  | start => exact ⟨_, trivial, fun n hn => absurd hn (Set.notMem_empty n), rfl, rfl, hstart⟩
  | step _ hnext ih =>
    obtain ⟨X, hX⟩ := ih
    cases hnext with
    | onward hi hpasses => exact hX.onward hi hpasses
    | jump hi hl hgoal => exact ⟨_, hX.jump hstart hi hl hgoal⟩

namespace Flows

variable {o : Operand} {l : Label}

theorem label (hX : X.Gives (L l)) (h : Flows L (pc + 1) (L l) code Z) :
    Flows L pc X (.label l :: code) Z := by
  refine .cons ⟨nofun, nofun, fun l' hl' => ?_, fun hr _ => hX.reached hr, ?_, ?_⟩ h
  · rw [Instr.label.inj hl']
  · exact hX.known.trans Set.subset_union_left
  · exact congrArg some hX.stack.symm

theorem jumpUnless (ho : o.Known X.known) (hX : X.Gives (L l))
    (h : Flows L (pc + 1) X code Z) : Flows L pc X (.jumpUnless o l :: code) Z := by
  refine .cons ⟨?_, fun l' hl' => ?_, nofun, fun hr _ => hr, Set.subset_union_left, rfl⟩ h
  · exact fun p hp => List.mem_singleton.1 hp ▸ ho
  · exact Option.some.inj hl' ▸ hX

theorem jump (hX : X.Gives (L l)) (h : Flows L (pc + 1) ⟨False, X.known, X.stack⟩ code Z) :
    Flows L pc X (.jump l :: code) Z := by
  have hstep : X.Passes L pc (.jump l) ⟨False, X.known, X.stack⟩ := by
    refine ⟨nofun, fun l' hl' => ?_, nofun, nofun, Set.subset_union_left, rfl⟩
    exact Option.some.inj hl' ▸ hX
  exact .cons hstep h

end Flows

variable {C : CallSite → Prop} {A B D : Set Nat} {f g : Bool}

theorem Structured.relabel (hs : Structured C A code B f) (h : Flows L pc X code Y)
    (hL : ∀ l ∈ code.labels, L' l = L l) : Flows L' pc X code Y := by
  refine h.congr fun i hi l hl => hL l ?_
  rcases hl with hl | hl
  · exact hs.target_mem i hi l hl
  · exact label_mem_labels (hl ▸ hi)

/-- Facts can be put at the labels of some code so that they flow through it, with any facts at the
other labels. -/
def CanFlow (A : Set Nat) (code : Code) (B : Set Nat) (f : Bool) : Prop :=
  ∀ (pc : Nat) (P : Prop) (σ : List Nat) (L : Label → Fact), ∃ L',
    (∀ l, l ∉ code.labels → L' l = L l) ∧ Flows L' pc ⟨P, A, σ⟩ code ⟨P ∧ f = true, B, σ⟩

theorem canFlow_append (ha : Structured C A a B f)
    (hdisjoint : List.Disjoint a.labels b.labels) (iha : CanFlow A a B f) (ihb : CanFlow B b D g) :
    CanFlow A (a ++ b) D (f && g) := by
  intro pc P σ L
  obtain ⟨L₁, hL₁, hflows₁⟩ := iha pc P σ L
  obtain ⟨L₂, hL₂, hflows₂⟩ := ihb (pc + a.length) (P ∧ f = true) σ L₁
  refine ⟨L₂, fun l hl => ?_, ?_⟩
  · rw [labels_append, List.mem_append, not_or] at hl
    rw [hL₂ l hl.2, hL₁ l hl.1]
  · have hfirst := ha.relabel hflows₁ fun l hl => hL₂ l (hdisjoint hl)
    refine (hfirst.append hflows₂).strengthen ⟨fun h => ⟨h.1.1, ?_⟩, subset_rfl, rfl⟩
    rw [h.1.2, h.2, Bool.and_self]

theorem canFlow_skip {o : Operand} {l : Label} {body : Code} (ho : o.Known A)
    (hs : Structured C A body B f) (hl : l ∉ body.labels) (ih : CanFlow A body B f) :
    CanFlow A (.jumpUnless o l :: (body ++ [.label l])) A true := by
  intro pc P σ L
  obtain ⟨L', hL', hflows⟩ := ih (pc + 1) P σ (Function.update L l ⟨P, A, σ⟩)
  have hend : L' l = ⟨P, A, σ⟩ := by rw [hL' l hl, Function.update_self]
  refine ⟨L', fun k hk => ?_, ?_⟩
  · simp only [labels, labels_append, List.mem_append, List.mem_singleton, not_or] at hk
    rw [hL' k hk.1, Function.update_of_ne hk.2]
  · refine .jumpUnless ho (hend ▸ .refl _) (hflows.append (.label ?_ (.nil ?_)))
    · rw [hend]
      exact ⟨And.left, hs.subset, rfl⟩
    · rw [hend]
      exact ⟨fun h => ⟨h, rfl⟩, subset_rfl, rfl⟩

theorem canFlow_branch {o : Operand} {l l' : Label} {yes no : Code} (ho : o.Known A)
    (hyes : Structured C A yes B f)
    (hnodup : (yes.labels ++ l :: (no.labels ++ [l'])).Nodup) (ihyes : CanFlow A yes B f)
    (ihno : CanFlow A no D g) :
    CanFlow A (.jumpUnless o l :: (yes ++ .jump l' :: .label l :: (no ++ [.label l'])))
      (B ∩ D) (f || g) := by
  intro pc P σ L
  obtain ⟨-, hrest, hapart⟩ := List.nodup_append.1 hnodup
  have hne : l ≠ l' := fun h => (List.nodup_cons.1 hrest).1 (by simp [h])
  have hlyes : l ∉ yes.labels := fun h => hapart l h l List.mem_cons_self rfl
  have hlno : l ∉ no.labels := fun h => (List.nodup_cons.1 hrest).1 (List.mem_append_left _ h)
  have hlyes' : l' ∉ yes.labels := fun h => hapart l' h l' (by simp) rfl
  have hlno' : l' ∉ no.labels := fun h =>
    (List.nodup_append.1 (List.nodup_cons.1 hrest).2).2.2 l' h l' (by simp) rfl
  -- The facts of the two labels come first, and those inside of the branches leave them alone.
  let otherwise : Fact := ⟨P, A, σ⟩
  let done : Fact := ⟨P ∧ (f || g) = true, B ∩ D, σ⟩
  obtain ⟨L₁, hL₁, hflows₁⟩ := ihyes (pc + 1) P σ
    (Function.update (Function.update L l otherwise) l' done)
  obtain ⟨L₂, hL₂, hflows₂⟩ := ihno (pc + 1 + yes.length + 1 + 1) P σ L₁
  have hl : L₂ l = otherwise := by
    rw [hL₂ l hlno, hL₁ l hlyes, Function.update_of_ne hne, Function.update_self]
  have hl' : L₂ l' = done := by rw [hL₂ l' hlno', hL₁ l' hlyes', Function.update_self]
  refine ⟨L₂, fun k hk => ?_, ?_⟩
  · simp only [labels, labels_append, List.mem_append, List.mem_cons, List.not_mem_nil, or_false,
      not_or] at hk
    obtain ⟨hkyes, hkl, hkno, hkl'⟩ := hk
    rw [hL₂ k hkno, hL₁ k hkyes, Function.update_of_ne hkl', Function.update_of_ne hkl]
  · have hfirst := hyes.relabel hflows₁ fun k hk => hL₂ k fun h =>
      hapart k hk k (List.mem_cons_of_mem _ (List.mem_append_left _ h)) rfl
    have hend : Flows L₂ (pc + 1 + yes.length + 1 + 1 + no.length) ⟨P ∧ g = true, D, σ⟩
        [.label l'] done := by
      refine .label ?_ (.nil ?_)
      · rw [hl']
        exact ⟨fun h => ⟨h.1, by rw [h.2, Bool.or_true]⟩, Set.inter_subset_right, rfl⟩
      · rw [hl']
        exact .refl _
    refine .jumpUnless ho ?_ (hfirst.append (.jump ?_ (.label ?_ ?_)))
    · rw [hl]
      exact .refl _
    · rw [hl']
      exact ⟨fun h => ⟨h.1, by rw [h.2, Bool.true_or]⟩, Set.inter_subset_left, rfl⟩
    · rw [hl]
      exact ⟨False.elim, hyes.subset, rfl⟩
    · rw [hl]
      exact hflows₂.append hend

theorem canFlow_loop {o : Operand} {l l' : Label} {test body : Code}
    (htest : Structured C A test B true) (ho : o.Known B) (hbody : Structured C B body D f)
    (hnodup : (l :: (test.labels ++ (body.labels ++ [l']))).Nodup)
    (ihtest : CanFlow A test B true) (ihbody : CanFlow B body D f) :
    CanFlow A (.label l :: (test ++ .jumpUnless o l' :: (body ++ [.jump l, .label l'])))
      B true := by
  intro pc P σ L
  obtain ⟨hl, hrest⟩ := List.nodup_cons.1 hnodup
  obtain ⟨-, hback, hapart⟩ := List.nodup_append.1 hrest
  simp only [List.mem_append, List.mem_singleton, not_or] at hl
  obtain ⟨hltest, hlbody, hne⟩ := hl
  have hltest' : l' ∉ test.labels := fun h => hapart l' h l' (by simp) rfl
  have hlbody' : l' ∉ body.labels := fun h => (List.nodup_append.1 hback).2.2 l' h l' (by simp) rfl
  let again : Fact := ⟨P, A, σ⟩
  let done : Fact := ⟨P, B, σ⟩
  obtain ⟨L₁, hL₁, hflows₁⟩ := ihtest (pc + 1) P σ
    (Function.update (Function.update L l again) l' done)
  obtain ⟨L₂, hL₂, hflows₂⟩ := ihbody (pc + 1 + test.length + 1) P σ L₁
  have hl : L₂ l = again := by
    rw [hL₂ l hlbody, hL₁ l hltest, Function.update_of_ne hne, Function.update_self]
  have hl' : L₂ l' = done := by rw [hL₂ l' hlbody', hL₁ l' hltest', Function.update_self]
  refine ⟨L₂, fun k hk => ?_, ?_⟩
  · simp only [labels, labels_append, List.mem_append, List.mem_cons, List.not_mem_nil, or_false,
      not_or] at hk
    obtain ⟨hkl, hktest, hkbody, hkl'⟩ := hk
    rw [hL₂ k hkbody, hL₁ k hktest, Function.update_of_ne hkl', Function.update_of_ne hkl]
  · have hfirst := htest.relabel hflows₁ fun k hk => hL₂ k fun h =>
      hapart k hk k (List.mem_append_left _ h) rfl
    have hstart : Fact.Gives ⟨P ∧ true = true, B, σ⟩ done := ⟨And.left, subset_rfl, rfl⟩
    have hend : Flows L₂ (pc + 1 + test.length + 1 + body.length) ⟨P ∧ f = true, D, σ⟩
        [.jump l, .label l'] ⟨P ∧ true = true, B, σ⟩ := by
      refine .jump ?_ (.label ?_ (.nil ?_))
      · rw [hl]
        exact ⟨And.left, htest.subset.trans hbody.subset, rfl⟩
      · rw [hl']
        exact ⟨False.elim, hbody.subset, rfl⟩
      · rw [hl']
        exact ⟨fun h => ⟨h, rfl⟩, subset_rfl, rfl⟩
    refine .label ?_ ?_
    · rw [hl]
      exact .refl _
    · rw [hl]
      refine hfirst.append ((Flows.jumpUnless ho ?_ (hflows₂.append hend)).weaken hstart)
      rw [hl']
      exact .refl _

theorem canFlow_slots {ps : List Slot} {known : Slot → Set Nat}
    (hs : ∀ p ∈ ps, Structured C A p.code (known p) true)
    (hvalues : ∀ p ∈ ps, ∀ o, p.value = some o → o.Known (known p))
    (hnodup : (Code.labels (ps.flatMap Slot.pushing)).Nodup)
    (ih : ∀ p ∈ ps, CanFlow A p.code (known p) true) (pc : Nat) (P : Prop) (σ : List Nat)
    (L : Label → Fact) : ∃ L', (∀ l, l ∉ Code.labels (ps.flatMap Slot.pushing) → L' l = L l) ∧
      Flows L' pc ⟨P, A, σ⟩ (ps.flatMap Slot.pushing)
        ⟨P, A, (Slot.places pc ps).reverse ++ σ⟩ := by
  induction ps generalizing pc σ L with
  | nil => exact ⟨L, fun _ _ => rfl, .nil (.refl _)⟩
  | cons p ps ihps =>
    obtain ⟨hp, hps⟩ := List.forall_mem_cons.1 hs
    obtain ⟨hvalue, hvalues⟩ := List.forall_mem_cons.1 hvalues
    obtain ⟨ihp, ih⟩ := List.forall_mem_cons.1 ih
    rw [labels_slots_cons] at hnodup ⊢
    obtain ⟨-, hrest, hapart⟩ := List.nodup_append.1 hnodup
    obtain ⟨L₁, hL₁, hflows₁⟩ := ihp pc P σ L
    obtain ⟨L₂, hL₂, hflows₂⟩ := ihps hps hvalues hrest ih (pc + p.code.length + 1)
      ((pc + p.code.length) :: σ) L₁
    refine ⟨L₂, fun l hl => ?_, ?_⟩
    · rw [List.mem_append, not_or] at hl
      rw [hL₂ l hl.2, hL₁ l hl.1]
    · have hfirst := hp.relabel hflows₁ fun l hl => hL₂ l fun h => hapart l hl l h rfl
      have hpush : Fact.Passes L₂ (pc + p.code.length) ⟨P ∧ true = true, known p, σ⟩
          (.push p.value) ⟨P, A, (pc + p.code.length) :: σ⟩ := by
        refine ⟨fun o ho => ?_, nofun, nofun, fun h _ => h.1, ?_, rfl⟩
        · rw [Instr.sources_push] at ho
          exact hvalue o (Option.mem_toList.1 ho)
        · exact hp.subset.trans Set.subset_union_left
      rw [List.flatMap_cons, Slot.pushing, List.append_assoc, List.singleton_append]
      refine hfirst.append (.cons hpush ?_)
      rw [Slot.places, List.reverse_cons, List.append_assoc, List.singleton_append]
      exact hflows₂

theorem flows_pops (L : Label → Fact) (pc : Nat) (P : Prop) (A : Set Nat) {ρ : List Nat}
    (σ : List Nat) {ops : List (Option Operand)} (h : ops.length = ρ.length) :
    Flows L pc ⟨P, A, ρ ++ σ⟩ (ops.map Instr.pop)
      ⟨P, A ∪ {n | some (Operand.temp n) ∈ ops}, σ⟩ := by
  induction ops generalizing pc A ρ with
  | nil =>
    rw [List.eq_nil_of_length_eq_zero h.symm]
    refine .nil ⟨id, Set.union_subset subset_rfl ?_, rfl⟩
    exact fun n hn => absurd hn List.not_mem_nil
  | cons o ops ih =>
    cases ρ with
    | nil => cases h
    | cons top ρ =>
      have hstep : Fact.Passes L pc ⟨P, A, top :: ρ ++ σ⟩ (.pop o)
          ⟨P, A ∪ (Instr.pop o).written, ρ ++ σ⟩ := by
        refine ⟨fun p hp => ?_, nofun, nofun, fun h _ => h, subset_rfl, rfl⟩
        rw [Instr.sources_pop] at hp
        cases hp
      refine .cons hstep ((ih (pc + 1) _ (Nat.succ.inj h)).strengthen ⟨id, ?_, rfl⟩)
      rw [Set.union_assoc]
      refine Set.union_subset_union_right A fun n hn => ?_
      rcases List.mem_cons.1 hn with hn | hn
      · refine Or.inl ?_
        rw [← hn]
        exact List.mem_singleton_self _
      · exact Or.inr hn

theorem canFlow_call {site : CallSite} {known : Slot → Set Nat}
    (hlength : site.pops.length = site.slots.length)
    (hs : ∀ p ∈ site.slots, Structured C A p.code (known p) true)
    (hvalues : ∀ p ∈ site.slots, ∀ o, p.value = some o → o.Known (known p))
    (hnodup : site.code.labels.Nodup)
    (ih : ∀ p ∈ site.slots, CanFlow A p.code (known p) true) :
    CanFlow A site.code (A ∪ site.written) true := by
  intro pc P σ L
  rw [labels_site] at hnodup ⊢
  obtain ⟨L', hL', hpushing⟩ := canFlow_slots hs hvalues hnodup ih pc P σ L
  have hplaces : site.pops.length = (Slot.places pc site.slots).reverse.length := by
    rw [List.length_reverse, Slot.length_places, hlength]
  have hpopping := flows_pops L' (pc + site.pushing.length + 1) P A σ hplaces
  have hcall : Fact.Passes L' (pc + site.pushing.length)
      ⟨P, A, (Slot.places pc site.slots).reverse ++ σ⟩ (.call site.name)
      ⟨P, A, (Slot.places pc site.slots).reverse ++ σ⟩ :=
    ⟨nofun, nofun, nofun, fun h _ => h, Set.subset_union_left, rfl⟩
  refine ⟨L', hL', (hpushing.append (.cons hcall hpopping)).strengthen ?_⟩
  exact ⟨fun h => ⟨h, rfl⟩, subset_rfl, rfl⟩

theorem Structured.canFlow (h : Structured C A code B f) (hnodup : code.labels.Nodup) :
    CanFlow A code B f := by
  induction h with
  | nil => exact fun _ _ _ L => ⟨L, fun _ _ => rfl, .nil ⟨fun h => ⟨h, rfl⟩, subset_rfl, rfl⟩⟩
  | @plain A i hi hsources =>
    refine fun pc P σ L => ⟨L, fun _ _ => rfl, .cons (Y := ⟨P, A ∪ i.written, σ⟩) ?_ (.nil ?_)⟩
    · refine ⟨hsources, fun l hl => ?_, fun l hl => ?_, fun h _ => h, subset_rfl, ?_⟩
      · cases i with
        | jump l => cases hi
        | jumpUnless o l => cases hi
        | _ => cases hl
      · rw [hl] at hi
        cases hi
      · cases i with
        | push src => cases hi
        | pop dst => cases hi
        | _ => rfl
    · exact ⟨fun h => ⟨h, rfl⟩, subset_rfl, rfl⟩
  | @ret A =>
    refine fun pc P σ L => ⟨L, fun _ _ => rfl, .cons (Y := ⟨False, A, σ⟩) ?_ (.nil ?_)⟩
    · exact ⟨nofun, nofun, nofun, nofun, Set.subset_union_left, rfl⟩
    · exact ⟨False.elim, subset_rfl, rfl⟩
  | append ha hb iha ihb =>
    rw [labels_append] at hnodup
    obtain ⟨hna, hnb, hapart⟩ := List.nodup_append.1 hnodup
    exact canFlow_append ha (fun l h h' => hapart l h l h' rfl) (iha hna) (ihb hnb)
  | skip ho hs ih =>
    simp only [labels, labels_append] at hnodup
    obtain ⟨hbody, -, hapart⟩ := List.nodup_append.1 hnodup
    exact canFlow_skip ho hs (fun h => hapart _ h _ List.mem_cons_self rfl) (ih hbody)
  | branch ho hyes hno ihyes ihno =>
    simp only [labels, labels_append] at hnodup
    obtain ⟨hnyes, hrest, -⟩ := List.nodup_append.1 hnodup
    have hnno := (List.nodup_append.1 (List.nodup_cons.1 hrest).2).1
    exact canFlow_branch ho hyes hnodup (ihyes hnyes) (ihno hnno)
  | loop htest ho hbody ihtest ihbody =>
    simp only [labels, labels_append] at hnodup
    obtain ⟨hntest, hrest, -⟩ := List.nodup_append.1 (List.nodup_cons.1 hnodup).2
    have hnbody := (List.nodup_append.1 hrest).1
    exact canFlow_loop htest ho hbody hnodup (ihtest hntest) (ihbody hnbody)
  | @call A site known hsite hlength hs hvalues ih =>
    have hslots : ∀ p ∈ site.slots, p.code.labels.Nodup := by
      rw [labels_site] at hnodup
      exact fun p hp => hnodup.sublist (sublist_labels_slots hp)
    exact canFlow_call hlength hs hvalues hnodup fun p hp => ih p hp (hslots p hp)

end Code

end Asl
