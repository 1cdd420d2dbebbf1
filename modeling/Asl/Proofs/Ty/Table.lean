import Asl.Ty.Table

/-!
# Growth of the table of types

A table is well formed if the parts of every entry stand before it, and if its map finds every entry
at its place and nothing else. Adding to a well-formed table puts entries in front of the list and
nowhere else, so every place that was handed out keeps its meaning; the place that an operation
hands out means the type that was asked for.
-/
namespace Asl

def TypeNode.PartsBelow (n : Nat) : TypeNode → Prop
  | .array _ elem => elem < n
  | .function params result => (∀ p ∈ params, p < n) ∧ result < n
  | _ => True

theorem TypeNode.PartsBelow.mono {n m : Nat} (hnm : n ≤ m) {node : TypeNode}
    (h : node.PartsBelow n) : node.PartsBelow m := by
  cases node with
  | array size elem => exact Nat.lt_of_lt_of_le h hnm
  | function params result =>
    exact ⟨fun p hp => Nat.lt_of_lt_of_le (h.1 p hp) hnm, Nat.lt_of_lt_of_le h.2 hnm⟩
  | _ => trivial

theorem TypeNode.toTy_congr {f g : TypeId → Ty} {n : Nat} {node : TypeNode}
    (hn : node.PartsBelow n) (h : ∀ i < n, f i = g i) : node.toTy f = node.toTy g := by
  cases node with
  | array size elem => simp only [TypeNode.toTy, h elem hn]
  | function params result =>
    have hp : params.map f = params.map g := List.map_congr_left fun p hp => h p (hn.1 p hp)
    simp only [TypeNode.toTy, hp, h result hn.2]
  | _ => rfl

namespace TypeTable

def OrderedNodes : List TypeNode → Prop
  | [] => True
  | node :: older => node.PartsBelow older.length ∧ OrderedNodes older

/-- The map finds a node exactly where it stands. -/
structure WellFormed (t : TypeTable) : Prop where
  ordered : OrderedNodes t.nodes
  found : ∀ node id, t.places[node]? = some id ↔ t.node? id = some node

def Extends (t t' : TypeTable) : Prop := t.nodes <:+ t'.nodes

theorem wellFormed_empty : WellFormed empty := ⟨trivial, by simp [empty, node?]⟩

theorem Extends.refl (t : TypeTable) : t.Extends t := List.suffix_refl _

theorem Extends.trans {t t' t'' : TypeTable} (h : t.Extends t') (h' : t'.Extends t'') :
    t.Extends t'' := List.IsSuffix.trans h h'

theorem Extends.size_le {t t' : TypeTable} (h : t.Extends t') : t.size ≤ t'.size := h.length_le

theorem denote_append (more older : List TypeNode) {i : Nat} (hi : i < older.length) :
    TypeNode.denote (more ++ older) i = TypeNode.denote older i := by
  induction more with
  | nil => rfl
  | cons node more ih =>
    have hne : i ≠ (more ++ older).length := by
      rw [List.length_append]
      omega
    rw [List.cons_append, TypeNode.denote, if_neg hne, ih]

theorem Extends.denote {t t' : TypeTable} (h : t.Extends t') {i : TypeId} (hi : i < t.size) :
    t'.denote i = t.denote i := by
  obtain ⟨more, hm⟩ := h
  rw [TypeTable.denote, ← hm]
  exact denote_append more t.nodes hi

theorem denote_of_getElem? {node : TypeNode} {nodes : List TypeNode} (hw : OrderedNodes nodes)
    {i : Nat} (h : nodes.reverse[i]? = some node) : i < nodes.length ∧ node.PartsBelow i ∧
      TypeNode.denote nodes i = node.toTy (TypeNode.denote nodes) := by
  induction nodes with
  | nil => simp at h
  | cons n older ih =>
    have hext : ∀ j < older.length,
        TypeNode.denote older j = TypeNode.denote (n :: older) j :=
      fun j hj => (denote_append [n] older hj).symm
    rw [List.reverse_cons, List.getElem?_append, List.length_reverse] at h
    split at h
    · obtain ⟨hi, hp, hd⟩ := ih hw.2 h
      refine ⟨Nat.lt_succ_of_lt hi, hp, ?_⟩
      rw [← hext i hi, hd]
      exact TypeNode.toTy_congr (hp.mono (Nat.le_of_lt hi)) hext
    · rename_i hge
      have hlt := (List.getElem?_eq_some_iff.1 h).1
      rw [List.length_singleton] at hlt
      obtain rfl : i = older.length := by omega
      rw [Nat.sub_self, List.getElem?_cons_zero] at h
      cases h
      refine ⟨Nat.lt_succ_self _, hw.1, ?_⟩
      rw [TypeNode.denote, if_pos rfl]
      exact TypeNode.toTy_congr hw.1 hext

theorem isSome_node? {t : TypeTable} {id : TypeId} (h : id < t.size) : (t.node? id).isSome := by
  have hlt : id < t.nodes.reverse.length := by
    rw [List.length_reverse]
    exact h
  rw [node?, List.getElem?_eq_getElem hlt]
  rfl

theorem node?_cons {t : TypeTable} {node : TypeNode} {places : Std.TreeMap TypeNode TypeId}
    {id : TypeId} : node? ⟨node :: t.nodes, places⟩ id =
      if id = t.size then some node else t.node? id := by
  rw [node?, List.reverse_cons, List.getElem?_append, List.length_reverse, node?, size]
  rcases Nat.lt_trichotomy id t.nodes.length with h | rfl | h
  · rw [if_pos h, if_neg (Nat.ne_of_lt h)]
  · simp
  · have hpast : t.nodes.reverse.length ≤ id := by
      rw [List.length_reverse]
      exact Nat.le_of_lt h
    rw [if_neg (Nat.not_lt.2 (Nat.le_of_lt h)), if_neg (Nat.ne_of_gt h),
      List.getElem?_eq_none hpast, List.getElem?_eq_none]
    rw [List.length_singleton]
    omega

theorem WellFormed.cons {t : TypeTable} (hw : t.WellFormed) {node : TypeNode}
    (hn : node.PartsBelow t.size) (hnew : t.places[node]? = none) :
    WellFormed ⟨node :: t.nodes, t.places.insert node t.size⟩ where
  ordered := ⟨hn, hw.ordered⟩
  found node' id := by
    have hsize : t.node? t.size = none := by simp [node?, size]
    rw [node?_cons, Std.TreeMap.getElem?_insert]
    simp only [Std.compare_eq_iff_eq]
    by_cases hnode : node = node'
    · subst hnode
      rw [if_pos rfl, Option.some.injEq]
      constructor
      · rintro rfl
        exact if_pos rfl
      · intro h
        split at h
        · rename_i hid
          exact hid.symm
        · rw [← hw.found, hnew] at h
          cases h
    · rw [if_neg hnode, hw.found]
      by_cases hid : id = t.size
      · subst hid
        rw [hsize, if_pos rfl]
        exact ⟨by rintro ⟨⟩, fun h => absurd (Option.some.inj h) hnode⟩
      · rw [if_neg hid]

theorem WellFormed.partsBelow {t : TypeTable} (hw : t.WellFormed) {id : TypeId} {node : TypeNode}
    (h : t.node? id = some node) : node.PartsBelow id := (denote_of_getElem? hw.ordered h).2.1

/-- What an operation on a table has to leave behind: a table that was added to, and a place in it
that means a type. -/
structure Holds (t t' : TypeTable) (id : TypeId) (ty : Ty) : Prop where
  wellFormed : t'.WellFormed
  extends_ : t.Extends t'
  lt_size : id < t'.size
  denote : t'.denote id = ty

theorem add_holds {t : TypeTable} (hw : t.WellFormed) {node : TypeNode}
    (hn : node.PartsBelow t.size) :
    t.Holds (t.add node).1 (t.add node).2 (node.toTy t.denote) := by
  unfold add
  split
  · rename_i id hid
    obtain ⟨hlt, -, hd⟩ := denote_of_getElem? hw.ordered ((hw.found node id).1 hid)
    exact ⟨hw, Extends.refl t, hlt, hd⟩
  · rename_i hnew
    refine ⟨hw.cons hn hnew, List.suffix_cons _ _, Nat.lt_succ_self _, ?_⟩
    simp only [TypeTable.denote, TypeNode.denote, size, if_true]
    rfl

structure HoldsAll (t t' : TypeTable) (ids : List TypeId) (tys : List Ty) : Prop where
  wellFormed : t'.WellFormed
  extends_ : t.Extends t'
  lt_size : ∀ id ∈ ids, id < t'.size
  denote : ids.map t'.denote = tys

theorem Extends.map_denote {t t' : TypeTable} (h : t.Extends t') {ids : List TypeId}
    (hi : ∀ id ∈ ids, id < t.size) : ids.map t'.denote = ids.map t.denote :=
  List.map_congr_left fun id hid => h.denote (hi id hid)

theorem HoldsAll.cons {t t' t'' : TypeTable} {id : TypeId} {ids : List TypeId} {ty : Ty}
    {tys : List Ty} (h : t.Holds t' id ty) (hs : t'.HoldsAll t'' ids tys) :
    t.HoldsAll t'' (id :: ids) (ty :: tys) where
  wellFormed := hs.wellFormed
  extends_ := h.extends_.trans hs.extends_
  lt_size := List.forall_mem_cons.2
    ⟨Nat.lt_of_lt_of_le h.lt_size hs.extends_.size_le, hs.lt_size⟩
  denote := by
    rw [List.map_cons, hs.extends_.denote h.lt_size, h.denote, hs.denote]

theorem Holds.function {t t' t'' : TypeTable} {ps : List TypeId} {r : TypeId} {params : List Ty}
    {result : Ty} (hps : t.HoldsAll t' ps params) (hr : t'.Holds t'' r result) :
    t.Holds (t''.add (.function ps r)).1 (t''.add (.function ps r)).2
      (.function params result) := by
  have hlt : ∀ p ∈ ps, p < t''.size :=
    fun p hp => Nat.lt_of_lt_of_le (hps.lt_size p hp) hr.extends_.size_le
  have hparts : (TypeNode.function ps r).PartsBelow t''.size := ⟨hlt, hr.lt_size⟩
  have ha := add_holds hr.wellFormed hparts
  refine ⟨ha.wellFormed, (hps.extends_.trans hr.extends_).trans ha.extends_, ha.lt_size, ?_⟩
  rw [ha.denote, TypeNode.toTy, hr.extends_.map_denote hps.lt_size, hps.denote, hr.denote]

mutual

theorem intern_holds {t : TypeTable} (hw : t.WellFormed) :
    (ty : Ty) → t.Holds (t.intern ty).1 (t.intern ty).2 ty
  | .error => add_holds hw trivial
  | .void => add_holds hw trivial
  | .int => add_holds hw trivial
  | .float => add_holds hw trivial
  | .bool => add_holds hw trivial
  | .char => add_holds hw trivial
  | .array size elem => by
      have he := intern_holds hw elem
      have hparts : (TypeNode.array size (t.intern elem).2).PartsBelow (t.intern elem).1.size :=
        he.lt_size
      have ha := add_holds he.wellFormed hparts
      refine ⟨ha.wellFormed, he.extends_.trans ha.extends_, ha.lt_size, ?_⟩
      rw [TypeNode.toTy, he.denote] at ha
      exact ha.denote
  | .function params result =>
      Holds.function (internAll_holds hw params)
        (intern_holds (internAll_holds hw params).wellFormed result)

theorem internAll_holds {t : TypeTable} (hw : t.WellFormed) :
    (tys : List Ty) → t.HoldsAll (t.internAll tys).1 (t.internAll tys).2 tys
  | [] => ⟨hw, Extends.refl t, fun _ h => absurd h List.not_mem_nil, rfl⟩
  | ty :: tys =>
      HoldsAll.cons (intern_holds hw ty) (internAll_holds (intern_holds hw ty).wellFormed tys)

end

end TypeTable

end Asl
