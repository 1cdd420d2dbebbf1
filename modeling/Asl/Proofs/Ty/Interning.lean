import Asl.Proofs.Code.Texts
import Asl.Proofs.Ty.Table
import Mathlib.Tactic.TFAE

/-!
# Interning is exact

Whatever has been asked of a table of types, every place of it holds a node with earlier parts, no
node has two places, and a place keeps its meaning for good. Two places are equal exactly if the
types that they mean are, and exactly if the texts of these types are: a text says where it ends, so
the commas inside of the type of a parameter are never taken for those between two parameters.
-/
namespace Asl

theorem repr_comma_injective {m n : Nat} {a b : List Char}
    (h : m.repr.toList ++ ',' :: a = n.repr.toList ++ ',' :: b) : m = n ∧ a = b := by
  have front : ∀ (k : Nat) (c : List Char),
      (k.repr.toList ++ ',' :: c).takeWhile Char.isDigit = k.repr.toList := by
    intro k c
    have hdigits : ∀ d ∈ k.repr.toList, d.isDigit = true := fun d hd => isDigit_of_mem_repr hd
    rw [List.takeWhile_append_of_pos hdigits, List.takeWhile_cons_of_neg (by decide),
      List.append_nil]
  have hfront := congrArg (List.takeWhile Char.isDigit) h
  rw [front, front] at hfront
  rw [hfront] at h
  have hback := List.cons.inj (List.append_cancel_left h)
  exact ⟨Nat.repr_injective (String.toList_injective hfront), hback.2⟩

namespace Ty

theorem toList_text_array (n : Nat) (e : Ty) (a : List Char) :
    (text (.array n e)).toList ++ a =
      "array<".toList ++ (n.repr.toList ++ ',' :: (e.text.toList ++ '>' :: a)) := by
  simp [text]

theorem toList_text_function (ps : List Ty) (r : Ty) (a : List Char) :
    (text (.function ps r)).toList ++ a =
      "function<(".toList ++
        ((listText ps).toList ++ ')' :: ':' :: (r.text.toList ++ '>' :: a)) := by
  simp [text]

/-- What follows a type in a list of types between commas that a parenthesis closes. -/
def tail (a : List Char) : List Ty → List Char
  | [] => ')' :: a
  | t :: ts => ',' :: ((listText (t :: ts)).toList ++ ')' :: a)

theorem toList_listText_cons (t : Ty) (ts : List Ty) (a : List Char) :
    (listText (t :: ts)).toList ++ ')' :: a = t.text.toList ++ tail a ts := by
  cases ts <;> simp [listText, tail]

theorem head?_text (t : Ty) : t.text.toList.head? ≠ some ')' := by
  cases t <;> simp [text]

theorem close_ne_text (t : Ty) (a b : List Char) : ')' :: a ≠ t.text.toList ++ b := by
  intro h
  have hhead := head?_text t
  cases hlist : t.text.toList with
  | nil =>
    revert hlist
    cases t <;> simp [text]
  | cons c cs =>
    rw [hlist] at h hhead
    exact hhead (congrArg some (List.cons.inj h).1.symm)

mutual

theorem text_append_injective : (t u : Ty) → (a b : List Char) →
    t.text.toList ++ a = u.text.toList ++ b → t = u ∧ a = b
  | .array m e, u, a, b, h => by
    cases u with
    | array n f =>
      rw [toList_text_array, toList_text_array] at h
      obtain ⟨hsize, helem⟩ := repr_comma_injective (List.append_cancel_left h)
      obtain ⟨he, hrest⟩ := text_append_injective e f _ _ helem
      rw [hsize, he]
      exact ⟨rfl, (List.cons.inj hrest).2⟩
    | _ => simp [text] at h
  | .function ps r, u, a, b, h => by
    cases u with
    | function qs q =>
      rw [toList_text_function, toList_text_function] at h
      obtain ⟨hparams, hresult⟩ := listText_append_injective ps qs _ _ (List.append_cancel_left h)
      obtain ⟨hr, hrest⟩ := text_append_injective r q _ _ (List.cons.inj hresult).2
      rw [hparams, hr]
      exact ⟨rfl, (List.cons.inj hrest).2⟩
    | _ => simp [text] at h
  | .error, u, a, b, h | .void, u, a, b, h | .int, u, a, b, h
  | .float, u, a, b, h | .bool, u, a, b, h | .char, u, a, b, h => by
    cases u <;> simp [text] at h ⊢
    exact h

theorem listText_append_injective : (ts us : List Ty) → (a b : List Char) →
    (listText ts).toList ++ ')' :: a = (listText us).toList ++ ')' :: b → ts = us ∧ a = b
  | [], [], a, b, h => ⟨rfl, (List.cons.inj h).2⟩
  | [], u :: us, a, b, h => by
    rw [toList_listText_cons] at h
    exact absurd h (close_ne_text u _ _)
  | t :: ts, [], a, b, h => by
    rw [toList_listText_cons] at h
    exact absurd h.symm (close_ne_text t _ _)
  | t :: ts, u :: us, a, b, h => by
    rw [toList_listText_cons, toList_listText_cons] at h
    obtain ⟨ht, hrest⟩ := text_append_injective t u _ _ h
    have hboth : ts = us ∧ a = b := by
      cases ts with
      | nil =>
        cases us with
        | nil => exact ⟨rfl, (List.cons.inj hrest).2⟩
        | cons v vs => simp [tail] at hrest
      | cons s ts =>
        cases us with
        | nil => simp [tail] at hrest
        | cons v vs =>
          exact listText_append_injective (s :: ts) (v :: vs) a b (List.cons.inj hrest).2
    rw [ht, hboth.1]
    exact ⟨rfl, hboth.2⟩

end

theorem text_injective {t u : Ty} (h : t.text = u.text) : t = u := by
  refine (text_append_injective t u [] [] ?_).1
  rw [h]

end Ty

theorem TypeNode.toTy_injective {f : TypeId → Ty} {k m : Nat} {n n' : TypeNode}
    (hn : n.PartsBelow k) (hn' : n'.PartsBelow m)
    (hf : ∀ p < k, ∀ q < m, f p = f q → p = q) (h : n.toTy f = n'.toTy f) : n = n' := by
  have hlist : ∀ ps qs : List TypeId, (∀ p ∈ ps, p < k) → (∀ q ∈ qs, q < m) →
      ps.map f = qs.map f → ps = qs := by
    intro ps
    induction ps with
    | nil =>
      intro qs _ _ hmap
      exact (List.map_eq_nil_iff.1 hmap.symm).symm
    | cons p ps ih =>
      intro qs hps hqs hmap
      cases qs with
      | nil => cases hmap
      | cons q qs =>
        obtain ⟨hp, hps⟩ := List.forall_mem_cons.1 hps
        obtain ⟨hq, hqs⟩ := List.forall_mem_cons.1 hqs
        obtain ⟨hhead, htail⟩ := List.cons.inj hmap
        rw [hf p hp q hq hhead, ih qs hps hqs htail]
  cases n with
  | array size elem =>
    cases n' with
    | array size' elem' =>
      obtain ⟨hsize, helem⟩ := Ty.array.inj h
      rw [hsize, hf elem hn elem' hn' helem]
    | _ => cases h
  | function params result =>
    cases n' with
    | function params' result' =>
      obtain ⟨hparams, hresult⟩ := Ty.function.inj h
      rw [hlist params params' hn.1 hn'.1 hparams, hf result hn.2 result' hn'.2 hresult]
    | _ => cases h
  | _ => cases n' <;> cases h; rfl

namespace TypeTable

variable {t t' t'' : TypeTable}

/-- What can be asked of a table: a node over places that it has handed out, or a type that a
program writes. -/
inductive Request
  | node (n : TypeNode)
  | base (b : BaseType)
  | written (spec : TypeSpec)

namespace Request

def Fits (t : TypeTable) : Request → Prop
  | .node n => n.PartsBelow t.size
  | _ => True

def type (t : TypeTable) : Request → Ty
  | .node n => n.toTy t.denote
  | .base b => .ofBase b
  | .written spec => .ofSpec spec

end Request

def create (t : TypeTable) : Request → TypeTable × TypeId
  | .node n => t.add n
  | .base b => t.intern (.ofBase b)
  | .written spec => t.intern (.ofSpec spec)

theorem WellFormed.create_holds (h : t.WellFormed) {r : Request} (hr : r.Fits t) :
    t.Holds (t.create r).1 (t.create r).2 (r.type t) := by
  cases r with
  | node n => exact add_holds h hr
  | base b => exact intern_holds h (.ofBase b)
  | written spec => exact intern_holds h (.ofSpec spec)

/-- What one table becomes by requests. -/
inductive Leads (t : TypeTable) : TypeTable → Prop
  | refl : Leads t t
  | create {t' : TypeTable} (h : Leads t t') (r : Request) (hr : r.Fits t') :
      Leads t (t'.create r).1

theorem Leads.keeps (h : t.Leads t') (hw : t.WellFormed) : t'.WellFormed ∧ t.Extends t' := by
  induction h with
  | refl => exact ⟨hw, .refl t⟩
  | create _ r hr ih =>
    obtain ⟨hw', hext⟩ := ih
    have hholds := hw'.create_holds hr
    exact ⟨hholds.wellFormed, hext.trans hholds.extends_⟩

namespace WellFormed

theorem denote_eq (h : t.WellFormed) {id : TypeId} {node : TypeNode}
    (hid : t.node? id = some node) : t.denote id = node.toTy t.denote :=
  (denote_of_getElem? h.ordered hid).2.2

theorem exists_node (h : t.WellFormed) {id : TypeId} (hid : id < t.size) :
    ∃ node, t.node? id = some node ∧ node.PartsBelow id := by
  obtain ⟨node, hnode⟩ := Option.isSome_iff_exists.1 (isSome_node? hid)
  exact ⟨node, hnode, h.partsBelow hnode⟩

/-- Places that mean one type are one place. The induction goes down to the parts, which stand
before the places on both sides. -/
theorem denote_injective (h : t.WellFormed) (i j : TypeId) (hi : i < t.size) (hj : j < t.size)
    (hij : t.denote i = t.denote j) : i = j := by
  induction i using Nat.strongRecOn generalizing j with
  | _ i ih =>
    obtain ⟨n, hn, hparts⟩ := h.exists_node hi
    obtain ⟨n', hn', hparts'⟩ := h.exists_node hj
    rw [h.denote_eq hn, h.denote_eq hn'] at hij
    have hsame : n = n' := by
      refine TypeNode.toTy_injective hparts hparts' (fun p hp q hq hpq => ?_) hij
      exact ih p hp q (Nat.lt_trans hp hi) (Nat.lt_trans hq hj) hpq
    rw [hsame] at hn
    have hplace := (h.found n' i).2 hn
    rw [(h.found n' j).2 hn'] at hplace
    exact (Option.some.inj hplace).symm

end WellFormed

/-- Places and nodes, types and texts tell each other. -/
structure Exact (t : TypeTable) : Prop where
  stored : ∀ id < t.size, ∃ node, t.node? id = some node ∧ node.PartsBelow id ∧
    t.denote id = node.toTy t.denote
  places : ∀ id node, t.places[node]? = some id ↔ t.node? id = some node
  same : ∀ i < t.size, ∀ j < t.size,
    [i = j, t.denote i = t.denote j, (t.denote i).text = (t.denote j).text].TFAE

theorem WellFormed.exact (h : t.WellFormed) : t.Exact where
  stored id hid := by
    obtain ⟨node, hnode, hparts⟩ := h.exists_node hid
    exact ⟨node, hnode, hparts, h.denote_eq hnode⟩
  places id node := h.found node id
  same i hi j hj := by
    tfae_have 1 → 2 := fun hij => congrArg t.denote hij
    tfae_have 2 → 3 := fun hij => congrArg Ty.text hij
    tfae_have 3 → 1 := fun hij => h.denote_injective i j hi hj (Ty.text_injective hij)
    tfae_finish

theorem Extends.node? (h : t.Extends t') {id : TypeId} (hid : id < t.size) :
    t'.node? id = t.node? id := by
  obtain ⟨more, hmore⟩ := h
  rw [TypeTable.node?, TypeTable.node?, ← hmore, List.reverse_append, List.getElem?_append_left]
  rw [List.length_reverse]
  exact hid

/-- A table that requests lead to is exact. It hands out a place that means what is asked for, and
all of its places keep their nodes and their meanings whatever is asked for later. -/
theorem Leads.interning_exact (h : Leads .empty t) :
    t.Exact ∧
      (∀ r, r.Fits t → (t.create r).2 < (t.create r).1.size ∧
        (t.create r).1.denote (t.create r).2 = r.type t) ∧
      ∀ t', t.Leads t' → ∀ id < t.size,
        id < t'.size ∧ t'.node? id = t.node? id ∧ t'.denote id = t.denote id := by
  have hw := (h.keeps wellFormed_empty).1
  refine ⟨hw.exact, fun r hr => ?_, fun t' hlater id hid => ?_⟩
  · have hholds := hw.create_holds hr
    exact ⟨hholds.lt_size, hholds.denote⟩
  · have hext := (hlater.keeps hw).2
    exact ⟨Nat.lt_of_lt_of_le hid hext.size_le, hext.node? hid, hext.denote hid⟩

/-- The table after an integer, an array of three, and a function of both were asked for. -/
def layered : TypeTable :=
  (((empty.create (.base .int)).1.create (.node (.array 3 0))).1.create
    (.node (.function [1, 0] 0))).1

theorem layered_exact : Leads .empty layered ∧ layered.size = 3 ∧ layered.Exact ∧
    (layered.create (.node (.array 3 0))).2 = 1 ∧
    (layered.denote 2).text = "function<(array<3,int>,int):int>" ∧
    ∀ t', layered.Leads t' → t'.denote 2 = .function [.array 3 .int, .int] .int := by
  have hleads : Leads .empty layered := by
    refine .create (.create (.create .refl (.base .int) trivial) (.node (.array 3 0)) ?_)
      (.node (.function [1, 0] 0)) ?_
    · exact Nat.zero_lt_one
    · exact ⟨by decide, by decide⟩
  obtain ⟨hexact, -, hkept⟩ := hleads.interning_exact
  refine ⟨hleads, rfl, hexact, by decide, by decide, fun t' hlater => ?_⟩
  rw [(hkept t' hlater 2 (by decide)).2.2]
  rfl

end TypeTable

end Asl
