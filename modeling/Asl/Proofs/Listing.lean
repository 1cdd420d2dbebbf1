import Asl.Proofs.ClosedCode
import Asl.Proofs.Code.Reading

/-!
# Listings tell their code

A listing has no quotes, and a name in it may be spelled as the heading of a section is. It can be
read all the same: a line feed ends a line and stands nowhere else, an empty line stands behind a
subroutine only, and only the lines inside of a section are indented by four blanks. So the listing
of compiled code is read back as the code.
-/
namespace Asl

def indent : List Char := [' ', ' ', ' ', ' ']

def isInside (line : List Char) : Bool := indent.isPrefixOf line

def sectionOf (lines : List (List Char)) : List (List Char) × List (List Char) :=
  ((lines.takeWhile isInside).map (·.drop indent.length), lines.dropWhile isInside)

theorem sectionOf_append (lines : List (List Char)) {heading : List Char}
    (h : isInside heading = false) (rest : List (List Char)) :
    sectionOf (lines.map (indent ++ ·) ++ heading :: rest) = (lines, heading :: rest) := by
  have hinside : ∀ l ∈ lines.map (indent ++ ·), isInside l = true := by
    intro l hl
    obtain ⟨line, -, rfl⟩ := List.mem_map.1 hl
    exact List.isPrefixOf_iff_prefix.2 (List.prefix_append _ _)
  rw [sectionOf, List.takeWhile_append_of_pos hinside, List.dropWhile_append_of_pos hinside,
    List.takeWhile_cons_of_neg (by simp [h]), List.dropWhile_cons_of_neg (by simp [h]),
    List.append_nil, List.map_map]
  simp [Function.comp_def]

theorem mapM_map_eq_some {α β : Type} {f : β → Option α} {g : α → β} {xs : List α}
    (h : ∀ x ∈ xs, f (g x) = some x) : (xs.map g).mapM f = some xs := by
  induction xs with
  | nil => rfl
  | cons x xs ih =>
    obtain ⟨hx, hxs⟩ := List.forall_mem_cons.1 h
    rw [List.map_cons, List.mapM_cons, hx, ih hxs]
    rfl

namespace Variable

def text (v : Variable) : String := v.name ++ " " ++ toString v.cells

def ofLine? (line : List Char) : Option Variable :=
  match words line with
  | [x, n] => some ⟨x, readNumber n.toList⟩
  | _ => none

theorem ofLine?_text {v : Variable} (h : Solid v.name) : ofLine? v.text.toList = some v := by
  have htext : v.text.toList = [' '].intercalate ([v.name, v.cells.repr].map String.toList) := by
    simp [text, List.intercalate]
  have hsolid : ∀ w ∈ [v.name, v.cells.repr], Solid w :=
    List.forall_mem_cons.2 ⟨h, List.forall_mem_singleton.2 (.repr v.cells)⟩
  rw [ofLine?, htext, words_intercalate hsolid (List.cons_ne_nil _ _)]
  simp only [readNumber_repr]

end Variable

namespace Subroutine

variable {sub : Subroutine}

/-- A subroutine whose names are solid and whose instructions can be read. -/
structure Legible (sub : Subroutine) : Prop where
  name : Solid sub.name
  params : ∀ x ∈ sub.params, Solid x
  locals : ∀ v ∈ sub.locals, Solid v.name
  code : ∀ i ∈ sub.code, i.Legible

def ofLines? : List (List Char) → Option Subroutine
  | heading :: _ :: lines => do
      let params := sectionOf lines
      let locals := sectionOf (params.2.drop 2)
      let code := sectionOf (locals.2.drop 1)
      let vars ← locals.1.mapM Variable.ofLine?
      let instrs ← code.1.mapM Instr.ofLine?
      return ⟨String.ofList (heading.drop "function ".toList.length),
        params.1.map String.ofList, vars,
        instrs⟩
  | _ => none

def rows (sub : Subroutine) : List (List Char) := sub.lines.map String.toList

theorem rows_eq (sub : Subroutine) : sub.rows =
    ("function " ++ sub.name).toList :: "  params".toList ::
      ((sub.params.map String.toList).map (indent ++ ·) ++ "  endparams".toList ::
        "  vars".toList :: ((sub.locals.map (·.text.toList)).map (indent ++ ·) ++
          "  endvars".toList :: ((sub.code.map (·.text.toList)).map (indent ++ ·) ++
            ["endfunction".toList]))) := by
  have hindent : "    ".toList = indent := rfl
  simp [rows, lines, Variable.text, hindent, Function.comp_def]

theorem Legible.ofLines?_rows (h : sub.Legible) :
    ofLines? (sub.rows) = some sub := by
  have hname : String.ofList (("function " ++ sub.name).toList.drop
      "function ".toList.length) = sub.name := by
    rw [String.toList_append, List.drop_left, String.ofList_toList]
  have hparams : (sub.params.map String.toList).map String.ofList = sub.params := by
    rw [List.map_map]
    exact List.map_id'' (fun x => String.ofList_toList) _
  have hlocals : (sub.locals.map (·.text.toList)).mapM Variable.ofLine? = some sub.locals :=
    mapM_map_eq_some fun v hv => Variable.ofLine?_text (h.locals v hv)
  have hcode : (sub.code.map (·.text.toList)).mapM Instr.ofLine? = some sub.code :=
    mapM_map_eq_some fun i hi => (h.code i hi).ofLine?_text
  rw [rows_eq, ofLines?, sectionOf_append _ (by decide)]
  simp only [List.drop_succ_cons, List.drop_zero]
  rw [sectionOf_append _ (by decide)]
  simp only [List.drop_succ_cons, List.drop_zero]
  rw [sectionOf_append _ (by decide)]
  simp only [hname, hparams, hlocals, hcode]
  rfl

theorem Legible.no_line_feed (h : sub.Legible) : ∀ l ∈ sub.rows, '\n' ∉ l := by
  have hindent {l : List Char} (hl : '\n' ∉ l) : '\n' ∉ indent ++ l := fun hmem =>
    (List.mem_append.1 hmem).elim (by decide) hl
  rw [rows_eq]
  simp only [List.forall_mem_cons, List.forall_mem_append, List.forall_mem_map]
  refine ⟨?_, by decide, fun x hx => hindent (h.params x hx).no_line_feed, by decide, by decide,
    fun v hv => hindent ?_, by decide, fun i hi => hindent (h.code i hi).no_line_feed, by decide⟩
  · simp only [String.toList_append, List.mem_append, not_or]
    exact ⟨by decide, h.name.no_line_feed⟩
  · simp only [Variable.text, String.toList_append, List.mem_append, not_or]
    exact ⟨⟨(h.locals v hv).no_line_feed, by decide⟩, (Solid.repr v.cells).no_line_feed⟩

theorem nil_notMem_rows (sub : Subroutine) : [] ∉ sub.rows := by
  rw [rows_eq]
  simp [indent]

end Subroutine

namespace Assembly

def ofText? (text : String) : Option Assembly :=
  ((((text.toList.splitOn '\n').splitOn []).filter (· ≠ [])).mapM Subroutine.ofLines?).map .mk

theorem toList_text_subroutine (sub : Subroutine) :
    sub.text.toList = sub.rows.flatMap (· ++ ['\n']) := by
  rw [Subroutine.text, String.toList_join, Subroutine.rows, List.flatMap_map, List.flatMap_map]
  simp only [String.toList_append]
  rfl

theorem splitOn_text {subs : List Subroutine} (h : ∀ sub ∈ subs, sub.Legible) (hne : subs ≠ []) :
    (text ⟨subs⟩).toList.splitOn '\n' = subs.flatMap (·.rows ++ [[]]) := by
  rw [text, String.toList_intercalate, List.map_map]
  induction subs with
  | nil => exact absurd rfl hne
  | cons sub subs ih =>
    obtain ⟨hsub, hsubs⟩ := List.forall_mem_cons.1 h
    have hlines := hsub.no_line_feed
    cases subs with
    | nil =>
      rw [List.map_singleton, List.intercalate_singleton, Function.comp, toList_text_subroutine]
      simpa using Text.splitOn_lines hlines []
    | cons sub' subs =>
      have hrest := ih hsubs (List.cons_ne_nil _ _)
      rw [List.map_cons, List.map_cons, List.intercalate_cons_cons, Function.comp,
        toList_text_subroutine, List.append_assoc, Text.splitOn_lines hlines, List.flatMap_cons,
        ← hrest,
        List.append_assoc]
      exact congrArg _ (List.splitOn_append_cons_self_of_not_mem List.not_mem_nil _)

theorem splitOn_rows (subs : List Subroutine) :
    (subs.flatMap (·.rows ++ [[]])).splitOn [] = subs.map Subroutine.rows ++ [[]] := by
  induction subs with
  | nil => rfl
  | cons sub subs ih =>
    rw [List.flatMap_cons, List.append_assoc, List.singleton_append,
      List.splitOn_append_cons_self_of_not_mem sub.nil_notMem_rows, ih, List.map_cons,
      List.cons_append]

theorem ofText?_text {a : Assembly} (h : ∀ sub ∈ a.subroutines, sub.Legible) :
    ofText? a.text = some a := by
  obtain ⟨subs⟩ := a
  have hread : (subs.map Subroutine.rows).mapM Subroutine.ofLines? = some subs :=
    mapM_map_eq_some fun sub hsub => (h sub hsub).ofLines?_rows
  have hkeep : (subs.map Subroutine.rows ++ [[]]).filter (· ≠ []) = subs.map Subroutine.rows := by
    have hall : ∀ ls ∈ subs.map Subroutine.rows, decide (ls ≠ []) = true := by
      intro ls hls
      obtain ⟨sub, -, rfl⟩ := List.mem_map.1 hls
      simp [Subroutine.rows, Subroutine.lines]
    rw [List.filter_append, List.filter_eq_self.2 hall]
    exact List.append_nil _
  by_cases hne : subs = []
  · subst hne
    rfl
  · rw [ofText?, splitOn_text h hne, splitOn_rows, hkeep, hread]
    rfl

end Assembly

namespace Program.Compiles

variable {p : Program} {s : Session} {a : Assembly} {f : Function} {sub : Subroutine}

theorem exists_lowered (h : p.Compiles s a) (hsub : sub ∈ a.subroutines) :
    ∃ f, p.Lowered s f sub := by
  obtain ⟨i, hi, rfl⟩ := List.mem_iff_getElem.1 hsub
  have hlength := h.subroutines.length_eq
  exact ⟨_, h.subroutines.get (hlength ▸ hi) hi⟩

theorem isIdentifier_name (h : p.Compiles s a) (hf : p.Lowered s f sub) :
    isIdentifier sub.name = true := by
  rw [hf.heads.name]
  exact (h.named f hf.mem).name

theorem isIdentifier_callee (h : p.Compiles s a) (hf : p.Lowered s f sub) {name : String}
    (hcall : .call name ∈ sub.code) : isIdentifier name = true := by
  obtain ⟨T, htyped⟩ := hf.typed
  obtain ⟨σ, σ', hinstr⟩ := htyped.instr _ hcall
  obtain ⟨params, t, hsignature⟩ := hinstr.signature
  obtain ⟨g, hg, -⟩ := Option.map_eq_some_iff.1 hsignature
  have hname := List.find?_some hg
  rw [← of_decide_eq_true hname]
  exact (h.named g (List.mem_of_find?_eq_some hg)).name

theorem legible (h : p.Compiles s a) (hwritten : ∀ k ∈ p.kinds, k.Written)
    (hf : p.Lowered s f sub) : sub.Legible where
  name := .of_isIdentifier (h.isIdentifier_name hf)
  params x hx := by
    rw [hf.heads.params] at hx
    rcases List.mem_append.1 hx with hx | hx
    · split at hx
      · cases hx
      · rw [List.mem_singleton.1 hx]
        decide
    · obtain ⟨q, hq, rfl⟩ := List.mem_map.1 hx
      exact .of_isIdentifier ((h.named f hf.mem).params q hq)
  locals v hv := by
    rw [hf.heads.locals] at hv
    obtain ⟨d, hd, hv⟩ := List.mem_flatMap.1 hv
    obtain ⟨x, hx, rfl⟩ := List.mem_map.1 hv
    exact .of_isIdentifier ((h.named f hf.mem).locals d hd x hx)
  code i hi := by
    have hname {x : String} {m : Role × Ty} (hx : (p.surroundings f).meaning x = some m) :
        isIdentifier x = true := by
      obtain ⟨e, he, rfl, -⟩ := Entry.exists_of_meaning? hx
      exact (h.named f hf.mem).entries e he
    refine ⟨fun q hq => ?_, fun name hcall => h.isIdentifier_callee hf (hcall ▸ hi), ?_⟩
    · obtain ⟨u, o⟩ := q
      have hsuits : o.Suits (p.surroundings f) u := suits hf i hi _ hq
      cases hsuits with
      | scalar ho =>
        cases ho with
        | name hx _ => exact hname hx
        | _ => trivial
      | owned hx _ | reference hx _ => exact hname hx
    · have hkinds : ∀ k ∈ f.kinds, k.Written := fun k hk =>
        hwritten k (List.mem_flatMap.2 ⟨f, hf.mem, hk⟩)
      exact Lower.subroutine_plain hkinds hf.lowered i hi

end Program.Compiles

/-- The listing of compiled code is read back as the code, so it is the listing of no other code. -/
theorem listing_tells_code {source : String} {a : Assembly} (h : compile source = .ok a) :
    Assembly.ofText? a.text = some a ∧
      ∀ source' b, compile source' = .ok b → b.text = a.text → b = a := by
  have hread {source : String} {a : Assembly} (h : compile source = .ok a) :
      Assembly.ofText? a.text = some a := by
    obtain ⟨p, s, hp, -, hcompiles⟩ := compile_accepted h
    have hwritten := Program.written_of_parse hp
    refine Assembly.ofText?_text fun sub hsub => ?_
    obtain ⟨f, hf⟩ := hcompiles.exists_lowered hsub
    exact hcompiles.legible hwritten hf
  refine ⟨hread h, fun source' b hb htext => ?_⟩
  have hsome := hread hb
  rw [htext, hread h] at hsome
  exact (Option.some.inj hsome).symm

/-- A text with blanks and brackets for characters, and with names that are spelled as headings. -/
def headingSource : String :=
  "func endvars(params : int) : char var vars : array [2] of char vars[0] := ' '; vars[params] := '\t'; return '\\['; endfunc func main() var function, endfunction : char function := endvars(1); endfunction := '['; write \"  endvars \\q\\n \"; write ' '; endfunc"

set_option maxRecDepth 20000 in
theorem exists_code_headingSource : ∃ a, compile headingSource = .ok a := by
  have hchars : headingSource.toList = _ := String.toList_ofList
  have hok : (compile headingSource).toOption.isSome = true := by
    rw [compile, check, parse, tokens, hchars]
    decide +kernel
  exact exists_code_of_isSome hok

theorem headingSource_tells_code : ∃ a, compile headingSource = .ok a ∧
    Assembly.ofText? a.text = some a ∧
      ∀ source' b, compile source' = .ok b → b.text = a.text → b = a := by
  obtain ⟨a, ha⟩ := exists_code_headingSource
  exact ⟨a, ha, listing_tells_code ha⟩

end Asl
