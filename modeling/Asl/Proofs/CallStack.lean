import Asl.Proofs.Accepted
import Asl.Proofs.Lowering.Starts
import Asl.Proofs.Meaning.Programs

/-!
# The stack of calls

What lies on the stack at a place of compiled code is the same on every path to it. A call finds on
top of the stack what was pushed for it, one entry for each parameter of the subroutine that it
names, and the pops behind it remove just these entries. Between statements, at a return and at the
end the stack is empty.
-/
namespace Asl

/-- What lies on the stack at a place, the pushes before it known by their places. -/
def Code.stackAt (code : Code) (pc : Nat) : List Nat := (scan 0 [] (code.take pc)).getD []

namespace Code

variable {code a b : Code} {pc start : Nat}

theorem Balanced.scan_take (h : code.Balanced) (pc : Nat) :
    scan 0 [] (code.take pc) = some (code.stackAt pc) := by
  have hwhole := h 0 []
  rw [← List.take_append_drop pc code, scan_append] at hwhole
  obtain ⟨σ, hσ, -⟩ := Option.bind_eq_some_iff.1 hwhole
  rw [stackAt, hσ]
  rfl

theorem Balanced.stackAt_length (h : code.Balanced) : code.stackAt code.length = [] := by
  rw [stackAt, List.take_length, h]
  rfl

theorem Balanced.stackAt_of_prefix (h : a.Balanced) : Code.stackAt (a ++ b) a.length = [] := by
  rw [stackAt, List.take_left, h]
  rfl

theorem Balanced.scan_part (h : code.Balanced) (hat : Code.At code start (a ++ b)) :
    scan start (code.stackAt start) a = some (code.stackAt (start + a.length)) := by
  obtain ⟨front, back, hcode, hstart⟩ := hat
  have hfront : code.take start = front := by
    rw [hcode, ← hstart, List.append_assoc, List.take_left]
  have hboth : code.take (start + a.length) = front ++ a := by
    rw [hcode, ← hstart, ← List.length_append, List.append_assoc, List.append_assoc,
      ← List.append_assoc front a, List.take_left]
  have hbefore := h.scan_take start
  have hbehind := h.scan_take (start + a.length)
  rw [hfront] at hbefore
  rw [hboth, scan_append, hbefore, Option.bind_some, hstart, Nat.zero_add] at hbehind
  exact hbehind

theorem Flows.pending {L : Label → Fact} {Z : Fact} (h : Flows L 0 ⟨True, ∅, []⟩ code Z)
    {visited : List Nat} (hpath : code.Path visited pc) :
    code.pending visited = some (code.stackAt pc) := by
  obtain ⟨X, hX⟩ := hpath.holds h
  rw [hX.stack, stackAt, hX.scan]
  rfl

theorem Typed.scan {E : Surroundings} {T : Typing} {σ σ' : List Cell}
    (h : Code.Typed E T σ code σ') {ρ : List Nat} (hlength : ρ.length = σ.length) (pc : Nat) :
    ∃ ρ', Code.scan pc ρ code = some ρ' ∧ ρ'.length = σ'.length := by
  induction h generalizing ρ pc with
  | nil => exact ⟨ρ, rfl, hlength⟩
  | @cons i code σ σ' σ'' hi _ ih =>
    have hmove : ∃ ρ', i.move pc ρ = some ρ' ∧ ρ'.length = σ'.length := by
      cases hi with
      | reserve => exact ⟨_, rfl, congrArg (· + 1) hlength⟩
      | push => exact ⟨_, rfl, congrArg (· + 1) hlength⟩
      | drop =>
        cases ρ with
        | nil => cases hlength
        | cons q ρ => exact ⟨ρ, rfl, Nat.succ.inj hlength⟩
      | pop =>
        cases ρ with
        | nil => cases hlength
        | cons q ρ => exact ⟨ρ, rfl, Nat.succ.inj hlength⟩
      | callFunction =>
        refine ⟨ρ, rfl, hlength.trans ?_⟩
        simp only [List.length_append, List.length_cons]
      | _ => exact ⟨ρ, rfl, hlength⟩
    obtain ⟨ρ', hρ', hlength'⟩ := hmove
    obtain ⟨ρ'', hscan, hfinal⟩ := ih hlength' (pc + 1)
    refine ⟨ρ'', ?_, hfinal⟩
    rw [Code.scan, hρ', Option.bind_some, hscan]

theorem Typed.split {E : Surroundings} {T : Typing} {σ σ'' : List Cell}
    (h : Code.Typed E T σ (a ++ b) σ'') :
    ∃ σ', Code.Typed E T σ a σ' ∧ Code.Typed E T σ' b σ'' := by
  induction a generalizing σ with
  | nil => exact ⟨σ, .nil, h⟩
  | cons i a ih =>
    cases h with
    | cons hi hrest =>
      obtain ⟨σ', ha, hb⟩ := ih hrest
      exact ⟨σ', .cons hi ha, hb⟩

theorem Typed.stackAt_ret {E : Surroundings} {T : Typing} {σ : List Cell}
    (h : Code.Typed E T [] code σ) (hret : code[pc]? = some .ret) : code.stackAt pc = [] := by
  rw [← List.take_append_drop pc code] at h
  obtain ⟨σ', hbefore, hrest⟩ := h.split
  rw [drop_of_getElem? hret] at hrest
  cases hrest with
  | cons hi _ =>
    cases hi
    obtain ⟨ρ, hscan, hlength⟩ := hbefore.scan (ρ := []) rfl 0
    rw [stackAt, hscan, List.eq_nil_of_length_eq_zero hlength]
    rfl

theorem At.getElem? {rest : Code} {i : Instr} (h : Code.At code start (a ++ i :: rest)) :
    code[start + a.length]? = some i := h.right.head

theorem Balanced.pushing (h : code.Balanced) {ps : List Slot} {rest : Code}
    (hps : ∀ p ∈ ps, p.code.Balanced)
    (hat : Code.At code start (ps.flatMap Slot.pushing ++ rest)) :
    List.Forall₂ (fun p q => code[q]? = some (.push p.value)) ps (Slot.places start ps) ∧
      ∀ i q, (Slot.places start ps)[i]? = some q → code.stackAt q =
        ((Slot.places start ps).take i).reverse ++ code.stackAt start := by
  induction ps generalizing start with
  | nil => exact ⟨.nil, fun i q hq => by simp [Slot.places] at hq⟩
  | cons p ps ih =>
    obtain ⟨hp, hps⟩ := List.forall_mem_cons.1 hps
    rw [List.flatMap_cons, Slot.pushing, List.append_assoc, List.append_assoc,
      List.singleton_append] at hat
    have hpush : code[start + p.code.length]? = some (.push p.value) := hat.getElem?
    have hplace : code.stackAt (start + p.code.length) = code.stackAt start := by
      have hscan := h.scan_part hat
      rw [hp] at hscan
      exact (Option.some.inj hscan).symm
    have hbehind : code.stackAt (start + p.code.length + 1) =
        (start + p.code.length) :: code.stackAt start := by
      have hscan := h.scan_part (a := [.push p.value]) hat.right
      rw [hplace] at hscan
      exact (Option.some.inj hscan).symm
    obtain ⟨hpushes, hstacks⟩ := ih hps hat.right.tail
    refine ⟨.cons hpush hpushes, fun i q hq => ?_⟩
    cases i with
    | zero =>
      cases hq
      exact hplace
    | succ i =>
      rw [hstacks i q hq, hbehind, Slot.places, List.take_succ_cons, List.reverse_cons,
        List.append_assoc, List.singleton_append]

end Code

/-- A call in the code of a subroutine, and the subroutine that it names. Each parameter has its
push, with nothing in it for the value of a function; the pushes lie on the stack in their order,
are on top of it at the call, and are popped one by one behind it. -/
structure CallSite.Serves (site : CallSite) (callee : Subroutine) (code : Code) (start : Nat) :
    Prop where
  stands : Code.At code start site.code
  pushes : List.Forall₂ (fun x q => ∃ value, code[q]? = some (.push value) ∧
    (value = none ↔ x = resultName)) callee.params (Slot.places start site.slots)
  pushing : ∀ i q, (Slot.places start site.slots)[i]? = some q → code.stackAt q =
    ((Slot.places start site.slots).take i).reverse ++ code.stackAt start
  calling : code.stackAt (start + site.pushing.length) =
    (Slot.places start site.slots).reverse ++ code.stackAt start
  pops : site.pops.length = callee.params.length
  popping : ∀ n ≤ site.pops.length, code.stackAt (start + site.pushing.length + 1 + n) =
    (Slot.places start site.slots).reverse.drop n ++ code.stackAt start

namespace Code

variable {code : Code} {start : Nat} {C : CallSite → Prop} {site : CallSite}

theorem Balanced.calling (h : code.Balanced) (hin : site.In C code start) :
    code.stackAt (start + site.pushing.length) =
      (Slot.places start site.slots).reverse ++ code.stackAt start := by
  have hscan := h.scan_part hin.stands
  rw [CallSite.pushing, scan_slots hin.balanced] at hscan
  exact (Option.some.inj hscan).symm

theorem Balanced.popping (h : code.Balanced) (hin : site.In C code start) {n : Nat}
    (hn : n ≤ site.pops.length) : code.stackAt (start + site.pushing.length + 1 + n) =
      (Slot.places start site.slots).reverse.drop n ++ code.stackAt start := by
  have hcall := h.scan_part (a := [.call site.name]) hin.stands.right
  rw [h.calling hin] at hcall
  have hbehind : code.stackAt (start + site.pushing.length + 1) =
      (Slot.places start site.slots).reverse ++ code.stackAt start :=
    (Option.some.inj hcall).symm
  have hpops : Code.At code (start + site.pushing.length + 1)
      ((site.pops.take n).map Instr.pop ++ (site.pops.drop n).map Instr.pop) := by
    rw [← List.map_append, List.take_append_drop]
    exact hin.stands.right.tail
  have hlength : (site.pops.take n).length = n := List.length_take_of_le hn
  have hscan := h.scan_part hpops
  rw [hbehind, scan_pops, List.length_map, hlength] at hscan
  · exact (Option.some.inj hscan).symm
  · rw [hlength, List.length_reverse, Slot.length_places, ← hin.pops]
    exact hn

end Code

theorem forall₂_through {α β γ : Type} {R : α → β → Prop} {S : β → γ → Prop} {xs : List α}
    {ys : List β} {zs : List γ} (h : List.Forall₂ R xs ys) (h' : List.Forall₂ S ys zs) :
    List.Forall₂ (fun x z => ∃ y, R x y ∧ S y z) xs zs := by
  induction h generalizing zs with
  | nil =>
    cases h'
    exact .nil
  | cons hxy _ ih =>
    cases h' with
    | cons hyz hrest => exact .cons ⟨_, hxy, hyz⟩ (ih hrest)

theorem Program.Compiles.callee {p : Program} {s : Session} {a : Assembly} {f : Function}
    (h : p.Compiles s a) {site : CallSite} (hsite : (p.surroundings f).Calls site) :
    ∃ callee, a.find? site.name = some callee ∧
      List.Forall₂ (fun x (q : Slot) => q.value = none ↔ x = resultName) callee.params
        site.slots := by
  obtain ⟨params, t, hsignature, hvalues⟩ := hsite
  obtain ⟨g, hg, hsame⟩ := Option.map_eq_some_iff.1 hsignature
  cases hsame
  obtain ⟨callee, hcallee, hheads⟩ := Subroutine.Heads.find?
    (h.subroutines.imp fun _ _ hf => hf.heads) hg
  refine ⟨callee, hcallee, ?_⟩
  have hentries := (h.named g (List.mem_of_find?_eq_some hg)).entries
  have hnames : ∀ q ∈ g.params, q.name.name ≠ resultName := by
    intro q hq hname
    exact Subroutine.Heads.resultName_not_mem hentries (List.mem_map.2 ⟨q, hq, hname⟩)
  have hslots : callee.params.map (fun x => decide (x ≠ resultName)) =
      site.slots.map (·.value.isSome) := by
    have hown : g.params.map ((fun x => decide (x ≠ resultName)) ∘ fun q => q.name.name) =
        g.params.map fun _ => true :=
      List.map_congr_left fun q hq => decide_eq_true (hnames q hq)
    rw [hvalues, hheads.params, g.isProcedure_type, List.map_append, List.map_map, hown,
      List.map_map]
    by_cases hvoid : g.resultType = .void
    · rw [if_pos hvoid, if_pos (decide_eq_true hvoid)]
      rfl
    · rw [if_neg hvoid, if_neg fun h => hvoid (of_decide_eq_true h)]
      simp [Function.comp_def]
  have heq := List.forall₂_eq_eq_eq.symm ▸ hslots
  rw [List.forall₂_map_left_iff, List.forall₂_map_right_iff] at heq
  refine heq.imp fun x q hxq => ?_
  rw [← Option.isNone_iff_eq_none, ← Option.not_isSome, ← hxq]
  simp

theorem Program.Compiles.serves {p : Program} {s : Session} {a : Assembly} {f : Function}
    (h : p.Compiles s a) {code : Code} (hcode : code.Balanced) {site : CallSite} {start : Nat}
    (hin : site.In (p.surroundings f).Calls code start) :
    ∃ callee, a.find? site.name = some callee ∧ site.Serves callee code start := by
  obtain ⟨callee, hcallee, hparams⟩ := h.callee hin.call
  obtain ⟨hpushes, hpushing⟩ := hcode.pushing hin.balanced hin.stands
  refine ⟨callee, hcallee, hin.stands, ?_, hpushing, hcode.calling hin, ?_,
    fun n hn => hcode.popping hin hn⟩
  · refine (forall₂_through hparams hpushes).imp fun x q hxq => ?_
    obtain ⟨slot, hvalue, hpush⟩ := hxq
    exact ⟨slot.value, hpush, hvalue⟩
  · rw [hin.pops, hparams.length_eq]

structure Subroutine.SlotFirst (sub : Subroutine) (f : Function) : Prop where
  first : sub.hasSlot = true ↔ f.result ≠ none
  only : resultName ∉ sub.params.tail

theorem Program.Compiles.slotFirst {p : Program} {s : Session} {a : Assembly} {f : Function}
    {sub : Subroutine} (h : p.Compiles s a) (hf : p.Lowered s f sub) : sub.SlotFirst f := by
  have hentries := (h.named f hf.mem).entries
  have hnot := Subroutine.Heads.resultName_not_mem hentries
  refine ⟨?_, ?_⟩
  · rw [hf.heads.hasSlot hentries, decide_eq_true_eq, Ne, Ne, f.result_eq_none_iff]
  · rw [hf.heads.params]
    split
    · exact fun hmem => hnot (List.mem_of_mem_tail hmem)
    · exact hnot

structure Code.Stacked (a : Assembly) (code : Code) : Prop where
  path : ∀ (visited : List Nat) (pc : Nat), code.Path visited pc →
    code.pending visited = some (code.stackAt pc) ∧
      (code.stackAt pc).length + code.passed isPop visited = code.passed isPush visited
  ret : ∀ pc : Nat, code[pc]? = some .ret → code.stackAt pc = []
  stop : code.stackAt code.length = []
  call : ∀ (pc : Nat) (name : String), code[pc]? = some (.call name) →
    ∃ (callee : Subroutine) (site : CallSite) (start : Nat), a.find? name = some callee ∧
      pc = start + site.pushing.length ∧ site.Serves callee code start

theorem Program.Compiles.stacked {p : Program} {s : Session} {a : Assembly} {f : Function}
    {sub : Subroutine} (h : p.Compiles s a) (hf : p.Lowered s f sub) : sub.code.Stacked a := by
  obtain ⟨B, g, hcode, -⟩ := h.structured hf
  obtain ⟨L, Z, hflows, -⟩ := h.flows hf
  obtain ⟨T, htyped⟩ := hf.typed
  refine ⟨fun visited pc hpath => ?_, fun pc hret => htyped.stackAt_ret hret,
    hcode.balanced.stackAt_length, fun pc name hcall => ?_⟩
  · have hpending := hflows.pending hpath
    exact ⟨hpending, Code.length_pending hpending⟩
  · obtain ⟨site, start, hin, hname, hpc⟩ := hcode.sited pc name hcall
    obtain ⟨callee, hcallee, hserves⟩ := h.serves hcode.balanced hin
    rw [hname] at hcallee
    exact ⟨callee, site, start, hcallee, hpc, hserves⟩

structure Stmt.StartsIn (Λ : Lowering) (code : Code) (st : Stmt) (c : Counters) (before : Code) :
    Prop where
  stands : ∃ part c', (Lower.stmt Λ st).run c = (.ok part, c') ∧
    Code.At code before.length part
  empty : code.stackAt before.length = []

theorem Lower.run_locals {Λ : Lowering} (ds : List Declaration) (c : Counters) :
    Gives (locals Λ ds) c fun _ c' => c' = c := by
  induction ds with
  | nil => exact gives_pure rfl
  | cons d ds ih =>
    refine (gives_typeOf Λ _ c).bind fun t c₁ hres => ?_
    obtain ⟨-, rfl⟩ := hres
    refine ih.bind fun vars c₂ hc₂ => ?_
    exact gives_pure hc₂

theorem Lower.subroutine_body {Λ : Lowering} {t : Ty} {f : Function} {sub : Subroutine}
    (h : subroutine Λ t f = .ok sub) : ∃ code c behind,
      (stmts Λ f.body).run ⟨0, 0, 0⟩ = (.ok code, c) ∧ sub.code = code ++ behind := by
  have hrun : (function Λ t f).run ⟨0, 0, 0⟩ = (.ok sub, _) := Prod.ext h rfl
  obtain ⟨vars, c, hvars, hrun⟩ := Attempt.run_bind_eq_ok.1 hrun
  obtain ⟨code, c', hcode, hrun⟩ := Attempt.run_bind_eq_ok.1 hrun
  rw [run_locals f.declarations _ _ _ hvars] at hcode
  have hsub : sub.code = closed t.isProcedure code := by
    cases hrun
    rfl
  rw [hsub, closed]
  split
  · exact ⟨code, c', [.ret], hcode, rfl⟩
  · exact ⟨code, c', [], hcode, (List.append_nil code).symm⟩

theorem Program.Compiles.startsIn {p : Program} {s : Session} {a : Assembly} {f : Function}
    {sub : Subroutine} (h : p.Compiles s a) (hf : p.Lowered s f sub) {st : Stmt} {c : Counters}
    {before : Code} (hcomes : Lower.Comes (p.lowering s f) f.body ⟨0, 0, 0⟩ st c before) :
    st.StartsIn (p.lowering s f) sub.code c before := by
  obtain ⟨code, c', behind, hrun, hcode⟩ := Lower.subroutine_body hf.lowered
  obtain ⟨part, d, rest, hpart, hwhole⟩ := hcomes.stands hrun
  have hok : ∀ t ∈ f.body, t.Ok (p.context f) ∧ t.Noted (p.lowering s f) (p.context f) :=
    fun t ht => ⟨h.wellTyped.body f hf.mem t ht, h.analyzed.noted hf.mem t ht⟩
  have hbalanced := hcomes.balanced (h.agrees hf) hok
  rw [hwhole] at hcode
  refine ⟨⟨part, d, hpart, before, rest ++ behind, ?_, rfl⟩, ?_⟩
  · rw [hcode]
    simp only [List.append_assoc]
  · rw [hcode, List.append_assoc, List.append_assoc]
    exact hbalanced.stackAt_of_prefix

theorem Program.Compiles.exists_comes {p : Program} {s : Session} {a : Assembly} {f : Function}
    {sub : Subroutine} (h : p.Compiles s a) (hf : p.Lowered s f sub) {st : Stmt}
    (hst : st.OccursIn f.body) :
    ∃ c before, Lower.Comes (p.lowering s f) f.body ⟨0, 0, 0⟩ st c before := by
  obtain ⟨code, c', behind, hrun, -⟩ := Lower.subroutine_body hf.lowered
  exact Lower.exists_comes hst
    (fun t ht => ⟨h.wellTyped.body f hf.mem t ht, h.analyzed.noted hf.mem t ht⟩) hrun

/-- The calls of compiled code keep to the discipline of the stack, and every statement of a
function starts with an empty stack wherever it comes in the code of the body. -/
theorem compile_stacks_calls {source : String} {a : Assembly} (h : compile source = .ok a) :
    ∃ p s, parse source = .ok p ∧ p.analyze = .ok s ∧ List.Forall₂ (fun f sub =>
      Lower.subroutine (p.lowering s f) f.type f = .ok sub ∧ sub.SlotFirst f ∧
        sub.code.Stacked a ∧ (∀ st, st.OccursIn f.body →
          ∃ c before, Lower.Comes (p.lowering s f) f.body ⟨0, 0, 0⟩ st c before) ∧
        ∀ st c before, Lower.Comes (p.lowering s f) f.body ⟨0, 0, 0⟩ st c before →
          st.StartsIn (p.lowering s f) sub.code c before) p.functions a.subroutines := by
  obtain ⟨p, s, hp, hs, hcompiles⟩ := compile_accepted h
  refine ⟨p, s, hp, hs, hcompiles.subroutines.imp fun f sub hf => ?_⟩
  exact ⟨hf.lowered, hcompiles.slotFirst hf, hcompiles.stacked hf,
    fun st hst => hcompiles.exists_comes hf hst,
    fun st c before hcomes => hcompiles.startsIn hf hcomes⟩

theorem surveySource_stacks_calls : ∃ a p s, compile surveySource = .ok a ∧
    parse surveySource = .ok p ∧ p.analyze = .ok s ∧ List.Forall₂ (fun f sub =>
      Lower.subroutine (p.lowering s f) f.type f = .ok sub ∧ sub.SlotFirst f ∧
        sub.code.Stacked a ∧ (∀ st, st.OccursIn f.body →
          ∃ c before, Lower.Comes (p.lowering s f) f.body ⟨0, 0, 0⟩ st c before) ∧
        ∀ st c before, Lower.Comes (p.lowering s f) f.body ⟨0, 0, 0⟩ st c before →
          st.StartsIn (p.lowering s f) sub.code c before) p.functions a.subroutines := by
  obtain ⟨a, ha⟩ := exists_code_surveySource
  obtain ⟨p, s, hp, hs, hsubs⟩ := compile_stacks_calls ha
  exact ⟨a, p, s, ha, hp, hs, hsubs⟩

end Asl
