import Asl.Proofs.Code.Paths
import Asl.Proofs.Meaning.Following

/-!
# Structured code

Structured code is put together from straight pieces, branches, loops and calls, each with jumps to
labels of its own. It says which temporaries are written when it is left, given those that are
written when it is entered, and whether it is left at all. Whatever it pushes it pops again.
-/
namespace Asl

/-- Code that a call runs before a push, and what it pushes then, which is nothing where the call
leaves its value. -/
structure Slot where
  code : Code
  value : Option Operand

def Slot.pushing (p : Slot) : Code := p.code ++ [.push p.value]

def Slot.places : Nat → List Slot → List Nat
  | _, [] => []
  | pc, p :: ps => (pc + p.code.length) :: places (pc + p.code.length + 1) ps

theorem Slot.length_places (pc : Nat) (ps : List Slot) : (places pc ps).length = ps.length := by
  induction ps generalizing pc with
  | nil => rfl
  | cons p ps ih => rw [places, List.length_cons, List.length_cons, ih]

structure CallSite where
  slots : List Slot
  name : String
  pops : List (Option Operand)

namespace CallSite

def pushing (site : CallSite) : Code := site.slots.flatMap Slot.pushing

def popping (site : CallSite) : Code := site.pops.map Instr.pop

def code (site : CallSite) : Code := site.pushing ++ .call site.name :: site.popping

def written (site : CallSite) : Set Nat := {n | some (Operand.temp n) ∈ site.pops}

end CallSite

def Instr.stacks : Instr → Bool
  | .push _ | .pop _ | .call _ => true
  | _ => false

/-- An instruction that only computes. -/
def Instr.isPlain : Instr → Bool
  | .push _ | .pop _ | .call _ | .ret | .jump _ | .jumpUnless _ _ | .label _ => false
  | _ => true

/-- Code with the temporaries that are written before and behind it, and whether control can come
to its end. All of its calls satisfy `C`. -/
inductive Code.Structured (C : CallSite → Prop) : Set Nat → Code → Set Nat → Bool → Prop
  | nil {A : Set Nat} : Structured C A [] A true
  | plain {A : Set Nat} {i : Instr} : i.isPlain = true → (∀ o ∈ i.sources, o.Known A) →
      Structured C A [i] (A ∪ i.written) true
  | ret {A : Set Nat} : Structured C A [.ret] A false
  | append {A B D : Set Nat} {a b : Code} {f g : Bool} : Structured C A a B f →
      Structured C B b D g → Structured C A (a ++ b) D (f && g)
  | skip {A B : Set Nat} {o : Operand} {l : Label} {body : Code} {f : Bool} : o.Known A →
      Structured C A body B f →
        Structured C A (.jumpUnless o l :: (body ++ [.label l])) A true
  | branch {A B D : Set Nat} {o : Operand} {l m : Label} {yes no : Code} {f g : Bool} :
      o.Known A → Structured C A yes B f → Structured C A no D g →
        Structured C A (.jumpUnless o l :: (yes ++ .jump m :: .label l :: (no ++ [.label m])))
          (B ∩ D) (f || g)
  | loop {A B D : Set Nat} {o : Operand} {l m : Label} {test body : Code} {f : Bool} :
      Structured C A test B true → o.Known B → Structured C B body D f →
        Structured C A (.label l :: (test ++ .jumpUnless o m :: (body ++ [.jump l, .label m])))
          B true
  | call {A : Set Nat} {site : CallSite} {known : Slot → Set Nat} : C site →
      site.pops.length = site.slots.length →
        (∀ p ∈ site.slots, Structured C A p.code (known p) true) →
          (∀ p ∈ site.slots, ∀ o, p.value = some o → o.Known (known p)) →
            Structured C A site.code (A ∪ site.written) true

namespace Code

variable {C : CallSite → Prop} {A B : Set Nat} {code : Code} {f : Bool}

theorem Structured.subset (h : Structured C A code B f) : A ⊆ B := by
  induction h with
  | nil => exact subset_rfl
  | plain => exact Set.subset_union_left
  | ret => exact subset_rfl
  | append _ _ iha ihb => exact iha.trans ihb
  | skip => exact subset_rfl
  | branch _ _ _ ihyes ihno => exact Set.subset_inter ihyes ihno
  | loop _ _ _ ihtest _ => exact ihtest
  | call => exact Set.subset_union_left

/-- What holds of all instructions outside of calls, and of calls if it holds of their slots, holds
of structured code, if it can be put together. -/
theorem Structured.of_parts {P : Code → Prop} (h : Structured C A code B f) (hnil : P [])
    (happend : ∀ a b, P a → P b → P (a ++ b)) (hsingle : ∀ i : Instr, i.stacks = false → P [i])
    (hcall : ∀ site, C site → site.pops.length = site.slots.length →
      (∀ p ∈ site.slots, P p.code) → P site.code) : P code := by
  have hcons : ∀ (i : Instr) (c : Code), i.stacks = false → P c → P (i :: c) :=
    fun i c hi hc => happend [i] c (hsingle i hi) hc
  induction h with
  | nil => exact hnil
  | @plain A i hi _ =>
    refine hsingle i ?_
    cases i with
    | push src => cases hi
    | pop dst => cases hi
    | call name => cases hi
    | _ => rfl
  | ret => exact hsingle _ rfl
  | append _ _ iha ihb => exact happend _ _ iha ihb
  | skip _ _ ih => exact hcons _ _ rfl (happend _ _ ih (hsingle _ rfl))
  | @branch _ _ _ _ _ l' _ no _ _ _ _ _ ihyes ihno =>
    have hno : P (no ++ [.label l']) := happend _ _ ihno (hsingle _ rfl)
    exact hcons _ _ rfl (happend _ _ ihyes (hcons _ _ rfl (hcons _ _ rfl hno)))
  | @loop _ _ _ _ l l' _ body _ _ _ _ ihtest ihbody =>
    have hbody : P (body ++ [.jump l, .label l']) :=
      happend _ _ ihbody (hcons _ _ rfl (hsingle _ rfl))
    exact hcons _ _ rfl (happend _ _ ihtest (hcons _ _ rfl hbody))
  | call hsite hlength _ _ ih => exact hcall _ hsite hlength ih

theorem labels_pops (ops : List (Option Operand)) : labels (ops.map Instr.pop) = [] := by
  induction ops with
  | nil => rfl
  | cons o ops ih => exact ih

@[simp] theorem labels_site (site : CallSite) : site.code.labels = labels site.pushing := by
  rw [CallSite.code, labels_append, labels, CallSite.popping, labels_pops, List.append_nil]
  intro l h
  cases h

theorem labels_slots_cons (p : Slot) (ps : List Slot) :
    labels ((p :: ps).flatMap Slot.pushing) =
      p.code.labels ++ labels (ps.flatMap Slot.pushing) := by
  rw [List.flatMap_cons, labels_append, Slot.pushing, labels_append]
  simp only [labels, List.append_nil]

theorem sublist_labels_slots {ps : List Slot} {p : Slot} (hp : p ∈ ps) :
    p.code.labels.Sublist (labels (ps.flatMap Slot.pushing)) := by
  induction ps with
  | nil => cases hp
  | cons q ps ih =>
    rw [labels_slots_cons]
    rcases List.mem_cons.1 hp with rfl | hp
    · exact List.sublist_append_left _ _
    · exact (ih hp).trans (List.sublist_append_right _ _)

/-- Code that leaves the stack as it was. -/
def Balanced (code : Code) : Prop := ∀ pc σ, scan pc σ code = some σ

theorem balanced_nil : Balanced [] := fun _ _ => rfl

theorem Balanced.append {a b : Code} (ha : Balanced a) (hb : Balanced b) : Balanced (a ++ b) := by
  intro pc σ
  rw [scan_append, ha, Option.bind_some, hb]

theorem balanced_single {i : Instr} (hi : i.stacks = false) : Balanced [i] := by
  intro pc σ
  cases i with
  | push src => cases hi
  | pop dst => cases hi
  | _ => rfl

theorem balanced_of_forall (h : ∀ i ∈ code, i.stacks = false) : Balanced code := by
  induction code with
  | nil => exact balanced_nil
  | cons i code ih =>
    obtain ⟨hi, hcode⟩ := List.forall_mem_cons.1 h
    exact (balanced_single hi).append (ih hcode)

theorem scan_slots {ps : List Slot} (h : ∀ p ∈ ps, Balanced p.code) (pc : Nat) (σ : List Nat) :
    scan pc σ (ps.flatMap Slot.pushing) = some ((Slot.places pc ps).reverse ++ σ) := by
  induction ps generalizing pc σ with
  | nil => rfl
  | cons p ps ih =>
    obtain ⟨hp, hps⟩ := List.forall_mem_cons.1 h
    have hpush : scan pc σ p.pushing = some ((pc + p.code.length) :: σ) := by
      rw [Slot.pushing, scan_append, hp]
      rfl
    rw [List.flatMap_cons, scan_append, hpush, Option.bind_some, ih hps, Slot.places,
      List.reverse_cons, List.append_assoc, List.singleton_append]
    simp only [Slot.pushing, List.length_append, List.length_cons, List.length_nil, Nat.add_assoc]

theorem scan_pops (pc : Nat) {ρ : List Nat} (σ : List Nat) (ops : List (Option Operand))
    (h : ops.length ≤ ρ.length) :
    scan pc (ρ ++ σ) (ops.map Instr.pop) = some (ρ.drop ops.length ++ σ) := by
  induction ops generalizing pc ρ with
  | nil => rfl
  | cons o ops ih =>
    cases ρ with
    | nil => exact absurd h (Nat.not_succ_le_zero _)
    | cons top ρ => exact ih (pc + 1) (Nat.le_of_succ_le_succ h)

theorem balanced_call {site : CallSite} (hlength : site.pops.length = site.slots.length)
    (h : ∀ p ∈ site.slots, Balanced p.code) : Balanced site.code := by
  intro pc σ
  have hplaces : (Slot.places pc site.slots).reverse.length = site.pops.length := by
    rw [List.length_reverse, Slot.length_places, hlength]
  rw [CallSite.code, scan_append, CallSite.pushing, scan_slots h, Option.bind_some, scan]
  change scan _ _ site.popping = _
  rw [CallSite.popping, scan_pops _ σ site.pops (Nat.le_of_eq hplaces.symm), ← hplaces,
    List.drop_length]
  rfl

theorem Structured.balanced (h : Structured C A code B f) : Balanced code := by
  refine h.of_parts balanced_nil (fun _ _ ha hb => ha.append hb) (fun _ hi => ?_) ?_
  · exact balanced_single hi
  · exact fun _ _ hlength ih => balanced_call hlength ih

theorem Structured.target_mem (h : Structured C A code B f) :
    ∀ i ∈ code, ∀ l, i.target? = some l → l ∈ code.labels := by
  induction h with
  | nil => rintro _ ⟨⟩
  | @plain A i hi _ =>
    intro j hj l hl
    rw [List.mem_singleton.1 hj] at hl
    cases i with
    | jump l => cases hi
    | jumpUnless o l => cases hi
    | _ => cases hl
  | ret =>
    intro j hj l hl
    rw [List.mem_singleton.1 hj] at hl
    cases hl
  | append _ _ iha ihb =>
    intro i hi l hl
    rw [labels_append]
    rcases List.mem_append.1 hi with hi | hi
    · exact List.mem_append_left _ (iha i hi l hl)
    · exact List.mem_append_right _ (ihb i hi l hl)
  | skip _ _ ih =>
    intro i hi l hl
    simp only [List.mem_cons, List.mem_append, List.not_mem_nil, or_false] at hi
    simp only [labels, labels_append, List.mem_append, List.mem_singleton]
    rcases hi with rfl | hi | rfl
    · cases hl
      exact Or.inr rfl
    · exact Or.inl (ih i hi l hl)
    · cases hl
  | branch _ _ _ ihyes ihno =>
    intro i hi l hl
    simp only [List.mem_cons, List.mem_append, List.not_mem_nil, or_false] at hi
    simp only [labels, labels_append, List.mem_append, List.mem_cons, List.not_mem_nil, or_false]
    rcases hi with rfl | hi | rfl | rfl | hi | rfl
    · cases hl
      exact Or.inr (Or.inl rfl)
    · exact Or.inl (ihyes i hi l hl)
    · cases hl
      exact Or.inr (Or.inr (Or.inr rfl))
    · cases hl
    · exact Or.inr (Or.inr (Or.inl (ihno i hi l hl)))
    · cases hl
  | loop _ _ _ ihtest ihbody =>
    intro i hi l hl
    simp only [List.mem_cons, List.mem_append, List.not_mem_nil, or_false] at hi
    simp only [labels, labels_append, List.mem_append, List.mem_cons, List.not_mem_nil, or_false]
    rcases hi with rfl | hi | rfl | hi | rfl | rfl
    · cases hl
    · exact Or.inr (Or.inl (ihtest i hi l hl))
    · cases hl
      exact Or.inr (Or.inr (Or.inr rfl))
    · exact Or.inr (Or.inr (Or.inl (ihbody i hi l hl)))
    · cases hl
      exact Or.inl rfl
    · cases hl
  | @call A site known _ _ _ _ ih =>
    intro i hi l hl
    rw [labels_site]
    rcases List.mem_append.1 hi with hi | hi
    · obtain ⟨p, hp, hi⟩ := List.mem_flatMap.1 hi
      rcases List.mem_append.1 hi with hi | hi
      · exact (sublist_labels_slots hp).subset (ih p hp i hi l hl)
      · rw [List.mem_singleton.1 hi] at hl
        cases hl
    · rcases List.mem_cons.1 hi with rfl | hi
      · cases hl
      · obtain ⟨o, _, rfl⟩ := List.mem_map.1 hi
        cases hl

theorem Structured.not_left (h : Structured C A code B f) (hlast : code.getLast? = some .ret) :
    f = false := by
  induction h with
  | nil => cases hlast
  | plain hi =>
    cases hlast
    cases hi
  | ret => rfl
  | @append A B D a b f g ha hb iha ihb =>
    rw [List.getLast?_append] at hlast
    cases hb' : b.getLast? with
    | none =>
      rw [hb', Option.none_or] at hlast
      rw [iha hlast, Bool.false_and]
    | some i =>
      rw [hb', Option.some_or] at hlast
      rw [ihb (hb'.trans hlast), Bool.and_false]
  | skip => simp [List.getLast?_cons] at hlast
  | branch => simp [List.getLast?_cons, List.getLast?_append] at hlast
  | loop => simp [List.getLast?_cons, List.getLast?_append] at hlast
  | @call A site known =>
    rw [CallSite.code, List.getLast?_append, CallSite.popping] at hlast
    cases hops : (site.pops.map Instr.pop).getLast? with
    | none => simp [List.getLast?_cons, hops] at hlast
    | some i =>
      obtain ⟨o, _, ho⟩ := List.mem_map.1 (List.mem_of_getLast? hops)
      simp [List.getLast?_cons, hops, ← ho] at hlast

end Code

/-- A call that stands in some code, with balanced code before each of its pushes. -/
structure CallSite.In (C : CallSite → Prop) (site : CallSite) (whole : Code) (start : Nat) :
    Prop where
  stands : Code.At whole start site.code
  call : C site
  pops : site.pops.length = site.slots.length
  balanced : ∀ p ∈ site.slots, p.code.Balanced

namespace Code

variable {C : CallSite → Prop} {A B : Set Nat} {a b code part : Code} {f : Bool} {start : Nat}

theorem At.before (h : At a start part) (b : Code) : At (a ++ b) start part := by
  obtain ⟨front, back, ha, hstart⟩ := h
  refine ⟨front, back ++ b, ?_, hstart⟩
  rw [ha, List.append_assoc]

theorem At.behind (h : At b start part) (a : Code) : At (a ++ b) (a.length + start) part := by
  obtain ⟨front, back, hb, hstart⟩ := h
  refine ⟨a ++ front, back, ?_, ?_⟩
  · rw [hb, List.append_assoc, List.append_assoc, List.append_assoc]
  · rw [List.length_append, hstart]

def Sited (C : CallSite → Prop) (code : Code) : Prop :=
  ∀ pc name, code[pc]? = some (.call name) → ∃ site start, CallSite.In C site code start ∧
    site.name = name ∧ pc = start + site.pushing.length

theorem sited_nil : Sited C [] := by
  intro pc name h
  cases h

theorem Sited.append (ha : Sited C a) (hb : Sited C b) : Sited C (a ++ b) := by
  intro pc name h
  by_cases hpc : pc < a.length
  · rw [List.getElem?_append_left hpc] at h
    obtain ⟨site, start, hin, hname, hplace⟩ := ha pc name h
    exact ⟨site, start, ⟨hin.stands.before b, hin.call, hin.pops, hin.balanced⟩, hname, hplace⟩
  · rw [List.getElem?_append_right (Nat.le_of_not_lt hpc)] at h
    obtain ⟨site, start, hin, hname, hplace⟩ := hb _ name h
    refine ⟨site, a.length + start, ⟨hin.stands.behind a, hin.call, hin.pops, hin.balanced⟩,
      hname, ?_⟩
    omega

theorem sited_single {i : Instr} (hi : ∀ name, i ≠ .call name) : Sited C [i] := by
  intro pc name hcall
  cases pc with
  | zero => exact absurd (Option.some.inj hcall) (hi name)
  | succ pc => cases hcall

theorem sited_slots {ps : List Slot} (h : ∀ p ∈ ps, Sited C p.code) :
    Sited C (ps.flatMap Slot.pushing) := by
  induction ps with
  | nil => exact sited_nil
  | cons p ps ih =>
    obtain ⟨hp, hps⟩ := List.forall_mem_cons.1 h
    have hpush : Sited C [.push p.value] := sited_single fun _ heq => nomatch heq
    exact (hp.append hpush).append (ih hps)

theorem sited_call {site : CallSite} (h : site.In C site.code 0)
    (hslots : ∀ p ∈ site.slots, Sited C p.code) : Sited C site.code := by
  intro pc name hcall
  rw [CallSite.code] at hcall
  by_cases hbefore : pc < site.pushing.length
  · rw [List.getElem?_append_left hbefore] at hcall
    obtain ⟨inner, start, hin, hname, hplace⟩ := sited_slots hslots pc name hcall
    exact ⟨inner, start, ⟨hin.stands.before _, hin.call, hin.pops, hin.balanced⟩, hname, hplace⟩
  · rw [List.getElem?_append_right (Nat.le_of_not_lt hbefore)] at hcall
    cases hrest : pc - site.pushing.length with
    | zero =>
      rw [hrest] at hcall
      refine ⟨site, 0, h, Instr.call.inj (Option.some.inj hcall), ?_⟩
      omega
    | succ k =>
      rw [hrest] at hcall
      obtain ⟨o, -, ho⟩ := List.mem_map.1 (List.mem_of_getElem? hcall)
      cases ho

theorem Structured.sited (h : Structured C A code B f) : Sited C code := by
  have hboth : Sited C code ∧ Balanced code := by
    refine h.of_parts (P := fun c => Sited C c ∧ Balanced c) ⟨sited_nil, balanced_nil⟩
      (fun _ _ ha hb => ⟨ha.1.append hb.1, ha.2.append hb.2⟩) (fun i hi => ?_) ?_
    · refine ⟨sited_single fun name heq => ?_, balanced_single hi⟩
      rw [heq] at hi
      cases hi
    · intro site hcall hlength ih
      have hbalanced : ∀ p ∈ site.slots, Balanced p.code := fun p hp => (ih p hp).2
      refine ⟨sited_call ⟨⟨[], [], ?_, rfl⟩, hcall, hlength, hbalanced⟩ fun p hp => (ih p hp).1,
        balanced_call hlength hbalanced⟩
      rw [List.nil_append, List.append_nil]
  exact hboth.1

end Code

end Asl
